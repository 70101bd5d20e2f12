import Kascov.History.LogSteps
import Kascov.Lib.Runs

/-!
# The delivery log is a faithful history

Over any run of the four writers, from a fresh index or from one whose events
predate the log: the sequences of the log are exactly `1 … next - 1`, a stored
record never changes, each removal names one earlier accepted record that no
other removal names, and the accepted records left are in bijection with the
events that carry a delivery sequence.
-/

namespace Kascov

open List

/-- One call of a writer of the delivery log. -/
inductive LogOp where
  | apply (block : AcceptedBlockBatch)
  | rollback (removed : List BlockHash)
  | backfill (batchSize : Nat)
  | repair (decoder : ApplicationDecoder) (limit : Nat)

/-- The transaction a call runs. -/
def LogOp.commit (dec : Decoders) (s : Store) : LogOp → Result Store
  | .apply block => (applyAcceptedBlock dec s block).map (·.1)
  | .rollback removed => (rollbackRemovedBlocks s removed).map (·.1)
  | .backfill batchSize => (backfillDeliveryBatch s batchSize).map (·.1)
  | .repair decoder limit => (repairApplicationFailures s decoder limit).map (·.1)

/-- The store after a run of calls, each of which may fail. -/
abbrev LogOp.run (dec : Decoders) (s : Store) (ops : List LogOp) : Store :=
  Runs.run (LogOp.commit dec) s ops

theorem LogInvariant.commit {dec : Decoders} {s s' : Store} {op : LogOp}
    (h : LogInvariant s s.nextStreamSeq) (hok : op.commit dec s = .ok s') :
    LogInvariant s' s'.nextStreamSeq := by
  cases op with
  | apply block =>
      obtain ⟨c, hc⟩ := map_fst_eq_ok hok
      obtain ⟨_, hdaa, ⟨_, rfl⟩ | ⟨hnew, rfl⟩⟩ := applyAcceptedBlock_ok hc
      · exact h
      · exact h.applied hnew hdaa
  | rollback removed =>
      obtain ⟨c, hc⟩ := map_fst_eq_ok hok
      obtain ⟨_, ⟨_, rfl, _⟩ | ⟨_, rfl, _⟩⟩ := rollbackRemovedBlocks_ok hc
      · exact h
      · exact h.rolledBack (canonicalRemoved_nodup s removed)
  | backfill batchSize =>
      obtain ⟨p, hp⟩ := map_fst_eq_ok hok
      exact h.backfill hp
  | repair decoder limit =>
      obtain ⟨result, hr⟩ := map_fst_eq_ok hok
      exact h.repair hr

theorem LogInvariant.run {dec : Decoders} {s : Store} (h : LogInvariant s s.nextStreamSeq)
    (ops : List LogOp) :
    LogInvariant (LogOp.run dec s ops) (LogOp.run dec s ops).nextStreamSeq :=
  Runs.run_invariant (fun s ↦ LogInvariant s s.nextStreamSeq)
    (fun _ _ _ hs hok ↦ hs.commit hok) ops h

/-! ## Records never change -/

/-- Every commit only appends to the log. -/
theorem log_prefix_of_commit {dec : Decoders} {s s' : Store} {op : LogOp}
    (hok : op.commit dec s = .ok s') : s.deliveryLog <+: s'.deliveryLog := by
  cases op with
  | apply block =>
      obtain ⟨c, hc⟩ := map_fst_eq_ok hok
      obtain ⟨_, _, ⟨_, rfl⟩ | ⟨_, rfl⟩⟩ := applyAcceptedBlock_ok hc
      · exact List.prefix_rfl
      · exact List.prefix_append _ _
  | rollback removed =>
      obtain ⟨c, hc⟩ := map_fst_eq_ok hok
      obtain ⟨_, ⟨_, rfl, _⟩ | ⟨_, rfl, _⟩⟩ := rollbackRemovedBlocks_ok hc
      · exact List.prefix_rfl
      · exact List.prefix_append _ _
  | backfill batchSize =>
      obtain ⟨p, hp⟩ := map_fst_eq_ok hok
      rcases backfillDeliveryBatch_ok hp with rfl | ⟨s₁, next, _, _, _, hfold, rfl⟩
      · exact List.prefix_rfl
      · refine Fallible.foldlM_invariant (fun acc ↦ s.deliveryLog <+: acc.1.deliveryLog) ?_
          List.prefix_rfl hfold
        intro acc row acc' _ hacc hstep
        rw [backfillRow_ok hstep]
        exact hacc.trans (List.prefix_append _ _)
  | repair decoder limit =>
      obtain ⟨result, hr⟩ := map_fst_eq_ok hok
      obtain ⟨s₁, next, hinv, rfl⟩ := repair_invariant
        (fun s' _ ↦ s.deliveryLog <+: s'.deliveryLog)
        (fun s₁ next transaction output stored event hs _ _ ↦
          hs.trans (List.prefix_append _ _))
        (fun _ _ _ _ hs ↦ hs) List.prefix_rfl hr
      exact hinv

theorem log_prefix_of_run (dec : Decoders) (s : Store) (ops : List LogOp) :
    s.deliveryLog <+: (LogOp.run dec s ops).deliveryLog :=
  Runs.run_rel (fun a b : Store ↦ a.deliveryLog <+: b.deliveryLog) (fun _ ↦ List.prefix_rfl)
    (fun h₁ h₂ ↦ h₁.trans h₂) (fun _ _ _ hok ↦ log_prefix_of_commit hok) s ops

/-! ## The history -/

/-- A faithful history.  `announced` pairs the live accepted records with the
stamped events: two lists with the same elements, no element twice in either. -/
structure FaithfulHistory (s : Store) : Prop where
  /-- The stream sequences are exactly `1 … next - 1`. -/
  seqs : s.deliveryLog.map (·.cursor.seq) = List.range' 1 (s.nextStreamSeq - 1)
  /-- A removal names an earlier accepted record. -/
  sources : ∀ r ∈ s.deliveryLog, r.kind = .removed → ∃ a ∈ s.deliveryLog,
    a.kind = .accepted ∧ r.sourceCursor = some a.cursor ∧ a.cursor.seq < r.cursor.seq
  /-- No two removals name the same record. -/
  once : ∀ r ∈ s.deliveryLog, ∀ r' ∈ s.deliveryLog, r.kind = .removed → r'.kind = .removed →
    r.sourceCursor = r'.sourceCursor → r = r'
  /-- The accepted records no removal names are the stamped events. -/
  announced : (s.deliveryLog.filter fun a ↦ a.kind = .accepted ∧
      ¬∃ r ∈ s.deliveryLog, r.kind = .removed ∧ r.sourceCursor = some a.cursor).map
        (·.eventKey) ~ stampedKeys s.covenantEvents
  unique : (stampedKeys s.covenantEvents).Nodup

theorem liveAccepted_eq_filter (log : List DeliveryRecord) :
    liveAccepted log = log.filter fun a ↦ a.kind = .accepted ∧
      ¬∃ r ∈ log, r.kind = .removed ∧ r.sourceCursor = some a.cursor := by
  unfold liveAccepted CancelLog.live
  refine List.filter_congr fun a _ ↦ ?_
  have hcancels : ∀ r : DeliveryRecord, acceptedReading.cancels r = some a.cursor ↔
      r.kind = .removed ∧ r.sourceCursor = some a.cursor := by
    intro r
    by_cases hk : r.kind = .removed <;> simp [acceptedReading, hk]
  have hc : CancelLog.cancelled acceptedReading log a.cursor = true ↔
      ∃ r ∈ log, r.kind = .removed ∧ r.sourceCursor = some a.cursor := by
    rw [CancelLog.cancelled_eq_true]
    simp only [hcancels]
  rw [Bool.eq_iff_iff, Bool.and_eq_true, Bool.not_eq_true', decide_eq_true_eq, ← hc,
    Bool.not_eq_true]
  simp [acceptedReading]

theorem LogInvariant.faithfulHistory {s : Store} (h : LogInvariant s s.nextStreamSeq) :
    FaithfulHistory s where
  seqs := h.seqs
  sources := h.sources
  once r hr r' hr' hk hk' heq :=
    List.inj_on_of_nodup_map h.once (List.mem_filter.mpr ⟨hr, by simpa using hk⟩)
      (List.mem_filter.mpr ⟨hr', by simpa using hk'⟩) heq
  announced := by
    rw [← liveAccepted_eq_filter]
    exact h.announced
  unique := by
    rw [← h.announced.nodup_iff]
    refine List.Nodup.map_on ?_ (h.log_nodup.filter _)
    intro a ha b hb heq
    exact List.inj_on_of_nodup_map h.seqs_nodup (List.mem_of_mem_filter ha)
      (List.mem_of_mem_filter hb) (congrArg EventKey.streamSeq heq)

/-- **The delivery log is a faithful event-sourced history**, after every run of
its four writers; and what a run has logged, no longer run changes. -/
theorem run_faithfulHistory (dec : Decoders) (s : Store) (h : Unlogged s)
    (ops more : List LogOp) :
    FaithfulHistory (LogOp.run dec s ops) ∧
      (LogOp.run dec s ops).deliveryLog <+: (LogOp.run dec s (ops ++ more)).deliveryLog := by
  refine ⟨(h.logInvariant.run ops).faithfulHistory, ?_⟩
  rw [LogOp.run, LogOp.run, Runs.run_append]
  exact log_prefix_of_run dec _ more

/-- A block with one genesis event. -/
def genesisBatch (block tx : BitVec 256) (daa : Nat) : AcceptedBlockBatch :=
  { acceptingBlock := ⟨block⟩
    acceptingDaa := daa
    events := [{ covenantId := ⟨tx⟩
                 kind := .genesis
                 txid := ⟨tx⟩
                 txIndex := 0
                 eventIndex := 0
                 payload := none
                 laneNamespace := none }] }

/-- The law on an index that applies a block, loses it and applies it again. -/
theorem reapplied_faithfulHistory :
    FaithfulHistory (LogOp.run .blind (.fresh ⟨0⟩)
        [.apply (genesisBatch 1 7 100), .rollback [⟨1⟩], .apply (genesisBatch 1 7 100)]) ∧
      (LogOp.run .blind (.fresh ⟨0⟩)
        [.apply (genesisBatch 1 7 100), .rollback [⟨1⟩],
          .apply (genesisBatch 1 7 100)]).deliveryLog <+:
      (LogOp.run .blind (.fresh ⟨0⟩)
        ([.apply (genesisBatch 1 7 100), .rollback [⟨1⟩], .apply (genesisBatch 1 7 100)] ++
          [.backfill 10])).deliveryLog :=
  run_faithfulHistory .blind (.fresh ⟨0⟩) (unlogged_fresh ⟨0⟩)
    [.apply (genesisBatch 1 7 100), .rollback [⟨1⟩], .apply (genesisBatch 1 7 100)]
    [.backfill 10]

end Kascov
