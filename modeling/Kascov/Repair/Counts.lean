import Kascov.Lib.Runs
import Kascov.Store.RepairEffect

/-!
# The failure counters

`application_decode_failure_counts` is one row that three triggers on
`application_decode_failures` keep: on every insert, on every delete, and on
every update that changes whether a failure is repaired.  A writer of the
failure table is run here together with its triggers, statement by statement.
-/

namespace Kascov

open Fallible

/-! ## The triggers -/

/-- The row of `application_decode_failure_counts`. -/
@[ext]
structure FailureCounts where
  total : Int := 0
  unrepaired : Int := 0
deriving DecidableEq, Repr

namespace FailureCounts

/-- `application_failure_count_insert`. -/
def onInsert (c : FailureCounts) (new : DecodeFailureRow) : FailureCounts where
  total := c.total + 1
  unrepaired := c.unrepaired + if new.unrepaired then 1 else 0

/-- `application_failure_count_delete`. -/
def onDelete (c : FailureCounts) (old : DecodeFailureRow) : FailureCounts where
  total := c.total - 1
  unrepaired := c.unrepaired - if old.unrepaired then 1 else 0

/-- `application_failure_count_repair`, with its `WHEN`. -/
def onUpdate (c : FailureCounts) (old new : DecodeFailureRow) : FailureCounts :=
  if old.unrepaired = new.unrepaired then
    c
  else
    { c with unrepaired := c.unrepaired + if new.unrepaired then 1 else -1 }

/-- The triggers of an `UPDATE`: a row it did not select is the same before and
after, which the `WHEN` passes over. -/
def onUpdates (c : FailureCounts) (before after : List DecodeFailureRow) : FailureCounts :=
  (before.zip after).foldl (fun c rows ↦ c.onUpdate rows.1 rows.2) c

/-- The counters agree with a table. -/
structure Matches (c : FailureCounts) (rows : List DecodeFailureRow) : Prop where
  total : c.total = rows.length
  unrepaired : c.unrepaired = rows.countP (·.unrepaired)

theorem matches_nil : Matches {} [] := ⟨rfl, rfl⟩

variable {c : FailureCounts} {rows : List DecodeFailureRow}

theorem Matches.insert (h : Matches c rows) (new : DecodeFailureRow) :
    Matches (c.onInsert new) (rows ++ [new]) := by
  constructor
  · simp [onInsert, h.total]
  · simp [onInsert, h.unrepaired, List.countP_cons]

theorem Matches.inserts (h : Matches c rows) (new : List DecodeFailureRow) :
    Matches (new.foldl onInsert c) (rows ++ new) := by
  induction new generalizing c rows with
  | nil => simpa using h
  | cons row rest ih => simpa using ih (h.insert row)

/-- Deleting rows takes what they counted for off the counters. -/
theorem foldl_onDelete (c : FailureCounts) (old : List DecodeFailureRow) :
    old.foldl onDelete c =
      ⟨c.total - old.length, c.unrepaired - old.countP (·.unrepaired)⟩ := by
  induction old generalizing c with
  | nil => simp
  | cons row rest ih =>
      rw [List.foldl_cons, ih]
      simp only [onDelete, List.length_cons, List.countP_cons, mk.injEq]
      constructor
      · push_cast
        ring
      · split <;> (push_cast; ring)

theorem Matches.delete (h : Matches c rows) (p : DecodeFailureRow → Bool) :
    Matches ((rows.filter fun row ↦ !p row).foldl onDelete c) (rows.filter p) := by
  rw [foldl_onDelete]
  constructor
  · have hlen := List.length_eq_length_filter_add p (l := rows)
    simp only [h.total]
    omega
  · have hcount : rows.countP (·.unrepaired) = (rows.filter p).countP (·.unrepaired) +
        (rows.filter fun row ↦ !p row).countP (·.unrepaired) := by
      rw [← List.countP_append]
      exact ((List.filter_append_perm p rows).countP_eq _).symm
    simp only [h.unrepaired, hcount]
    push_cast
    ring

/-- Updating rows moves the counter by what the update changed. -/
theorem onUpdates_eq (c : FailureCounts) {before after : List DecodeFailureRow}
    (hlen : after.length = before.length) :
    c.onUpdates before after =
      { c with unrepaired := c.unrepaired + after.countP (·.unrepaired) -
          before.countP (·.unrepaired) } := by
  unfold onUpdates
  induction before generalizing c after with
  | nil =>
      obtain rfl := List.length_eq_zero_iff.mp hlen
      simp
  | cons old before ih =>
      obtain ⟨new, after, rfl⟩ := List.exists_cons_of_length_eq_add_one hlen
      rw [List.zip_cons_cons, List.foldl_cons, ih _ (Nat.succ.inj hlen)]
      simp only [onUpdate, List.countP_cons]
      cases old.unrepaired <;> cases new.unrepaired <;> simp <;> ring

theorem Matches.update {before after : List DecodeFailureRow} (h : Matches c before)
    (hlen : after.length = before.length) : Matches (c.onUpdates before after) after := by
  rw [onUpdates_eq c hlen]
  constructor
  · rw [h.total, hlen]
  · simp only [h.unrepaired]
    ring

end FailureCounts

/-! ## The writers with their triggers -/

/-- An index with its counter row. -/
structure CountedStore where
  store : Store
  counts : FailureCounts := {}
deriving DecidableEq, Repr

/-- A freshly created index: `seed_application_decode_failure_counts` counts an
empty table. -/
def CountedStore.fresh (epoch : StreamEpoch) : CountedStore := { store := .fresh epoch }

/-- `Store::apply_accepted_block`: the failures it inserts are the rows past the
ones it found. -/
def countedApply (dec : Decoders) (cs : CountedStore) (block : AcceptedBlockBatch) :
    Result CountedStore := do
  let (s, _) ← applyAcceptedBlock dec cs.store block
  let inserted := s.applicationDecodeFailures.drop cs.store.applicationDecodeFailures.length
  return { store := s, counts := inserted.foldl .onInsert cs.counts }

/-- `DELETE FROM application_decode_failures WHERE accepting_block = ?1`. -/
def deleteFailures (acc : List DecodeFailureRow × FailureCounts) (hash : BlockHash) :
    List DecodeFailureRow × FailureCounts :=
  (acc.1.filter (·.acceptingBlock ≠ hash),
    (acc.1.filter (·.acceptingBlock = hash)).foldl .onDelete acc.2)

/-- `Store::rollback_removed_blocks`. -/
def countedRollback (cs : CountedStore) (removed : List BlockHash) : Result CountedStore := do
  let (s, _) ← rollbackRemovedBlocks cs.store removed
  let deleted := (canonicalRemoved cs.store removed).foldl deleteFailures
    (cs.store.applicationDecodeFailures, cs.counts)
  return { store := s, counts := deleted.2 }

/-- One output of the repair loop; it runs at most one `UPDATE` of failures. -/
def countedRepairOutput (transaction : Transaction) (acc : RepairState × FailureCounts)
    (output : ApplicationOutput) : Result (RepairState × FailureCounts) := do
  let r ← repairOutput transaction acc.1 output
  return (r, acc.2.onUpdates acc.1.store.applicationDecodeFailures
    r.store.applicationDecodeFailures)

/-- One transaction of the repair loop; its close runs at most one `UPDATE` of
failures. -/
def countedRepairTransaction (acc : RepairState × FailureCounts)
    (decoded : Transaction × ApplicationPreprocess) : Result (RepairState × FailureCounts) := do
  let acc ← decoded.2.outputs.foldlM (countedRepairOutput decoded.1)
    ({ acc.1 with repairedSequences := [] }, acc.2)
  let r := finishRepair decoded.1 decoded.2 acc.1
  return (r, acc.2.onUpdates acc.1.store.applicationDecodeFailures
    r.store.applicationDecodeFailures)

/-- `Store::repair_application_failures`; what remains is read off the counter. -/
def countedRepair (cs : CountedStore) (decoder : ApplicationDecoder) (limit : Nat) :
    Result (CountedStore × ApplicationRepairResult) := do
  let decoded ← (repairCandidates cs.store limit).mapM (decodeCandidate decoder)
  let (r, counts) ← decoded.foldlM countedRepairTransaction
    ({ store := cs.store
       next := cs.store.nextStreamSeq
       result := { transactionsScanned := decoded.length } }, cs.counts)
  return ({ store := { r.store with nextStreamSeq := r.next }, counts },
    { r.result with failuresRemaining := counts.unrepaired.toNat })

/-- A call of one of the three writers of the application tables. -/
inductive ApplicationOp where
  | apply (block : AcceptedBlockBatch)
  | rollback (removed : List BlockHash)
  | repair (decoder : ApplicationDecoder) (limit : Nat)

/-- The transaction a call runs. -/
def ApplicationOp.commit (dec : Decoders) (cs : CountedStore) :
    ApplicationOp → Result CountedStore
  | .apply block => countedApply dec cs block
  | .rollback removed => countedRollback cs removed
  | .repair decoder limit => (countedRepair cs decoder limit).map (·.1)

/-- The index after a run of calls, each of which may fail. -/
abbrev ApplicationOp.run (dec : Decoders) (cs : CountedStore) (ops : List ApplicationOp) :
    CountedStore :=
  Runs.run (ApplicationOp.commit dec) cs ops

/-! ## The counters always agree -/

variable {dec : Decoders} {cs cs' : CountedStore}

/-- An index whose counters agree with its failure table. -/
def CountedStore.Counted (cs : CountedStore) : Prop :=
  cs.counts.Matches cs.store.applicationDecodeFailures

theorem counted_fresh (epoch : StreamEpoch) : (CountedStore.fresh epoch).Counted :=
  FailureCounts.matches_nil

theorem countedApply_ok {block : AcceptedBlockBatch} (h : countedApply dec cs block = .ok cs') :
    (∃ c, applyAcceptedBlock dec cs.store block = .ok (cs'.store, c)) ∧
      (cs.Counted → cs'.Counted) := by
  unfold countedApply at h
  obtain ⟨⟨s, c⟩, happly, h⟩ := bind_eq_ok.mp h
  rw [pure_eq_ok] at h
  subst h
  refine ⟨⟨c, happly⟩, fun hcs ↦ ?_⟩
  have hrows : ∃ new, s.applicationDecodeFailures =
      cs.store.applicationDecodeFailures ++ new := by
    rcases (applyAcceptedBlock_ok happly).2.2 with ⟨-, rfl⟩ | ⟨-, rfl⟩
    · exact ⟨[], (List.append_nil _).symm⟩
    · exact ⟨_, rfl⟩
  obtain ⟨new, hnew⟩ := hrows
  unfold CountedStore.Counted
  simp only [hnew, List.drop_left]
  exact hcs.inserts new

theorem foldl_deleteFailures (hashes : List BlockHash)
    {acc : List DecodeFailureRow × FailureCounts} (h : acc.2.Matches acc.1) :
    (hashes.foldl deleteFailures acc).1 = acc.1.filter (·.acceptingBlock ∉ hashes) ∧
      (hashes.foldl deleteFailures acc).2.Matches (hashes.foldl deleteFailures acc).1 := by
  induction hashes generalizing acc with
  | nil => simpa using h
  | cons hash rest ih =>
      have hstep : (deleteFailures acc hash).2.Matches (deleteFailures acc hash).1 := by
        simpa [deleteFailures] using h.delete fun row ↦ decide (row.acceptingBlock ≠ hash)
      rw [List.foldl_cons]
      refine ⟨?_, (ih hstep).2⟩
      rw [(ih hstep).1]
      exact Rows.filter_notMem_cons _ _ _ _

theorem countedRollback_ok {removed : List BlockHash}
    (h : countedRollback cs removed = .ok cs') :
    (∃ c, rollbackRemovedBlocks cs.store removed = .ok (cs'.store, c)) ∧
      (cs.Counted → cs'.Counted) := by
  unfold countedRollback at h
  obtain ⟨⟨s, c⟩, hroll, h⟩ := bind_eq_ok.mp h
  rw [pure_eq_ok] at h
  subst h
  refine ⟨⟨c, hroll⟩, fun hcs ↦ ?_⟩
  have hmatch : (cs.store.applicationDecodeFailures, cs.counts).2.Matches
      (cs.store.applicationDecodeFailures, cs.counts).1 := hcs
  obtain ⟨hrows, hmatches⟩ := foldl_deleteFailures (canonicalRemoved cs.store removed) hmatch
  unfold CountedStore.Counted
  have hs : s.applicationDecodeFailures = cs.store.applicationDecodeFailures.filter
      (·.acceptingBlock ∉ canonicalRemoved cs.store removed) := by
    rcases (rollbackRemovedBlocks_ok hroll).2 with ⟨hnil, rfl, -⟩ | ⟨-, rfl, -⟩
    · simp [hnil]
    · rfl
  rw [hrows] at hmatches
  rw [hs]
  exact hmatches

@[simp] theorem markRepaired_length (seq : Nat) (select : DecodeFailureRow → Bool)
    (rows : List DecodeFailureRow) : (markRepaired seq select rows).length = rows.length := by
  simp [markRepaired]

theorem repairOutput_length {transaction : Transaction} {r r' : RepairState}
    {output : ApplicationOutput} (h : repairOutput transaction r output = .ok r') :
    r'.store.applicationDecodeFailures.length = r.store.applicationDecodeFailures.length := by
  rcases repairOutput_ok h with rfl | ⟨stored, event, -, -, hstore, -⟩
  · rfl
  · rw [hstore]
    simp [repairedOutput]

theorem finishRepair_length (transaction : Transaction) (application : ApplicationPreprocess)
    (r : RepairState) :
    (finishRepair transaction application r).store.applicationDecodeFailures.length =
      r.store.applicationDecodeFailures.length := by
  unfold finishRepair
  simp only
  split <;> simp

theorem countedRepairTransaction_ok {acc acc' : RepairState × FailureCounts}
    {decoded : Transaction × ApplicationPreprocess}
    (h : countedRepairTransaction acc decoded = .ok acc') :
    repairTransaction acc.1 decoded = .ok acc'.1 ∧
      (acc.2.Matches acc.1.store.applicationDecodeFailures →
        acc'.2.Matches acc'.1.store.applicationDecodeFailures) := by
  unfold countedRepairTransaction at h
  obtain ⟨acc₁, h₁, h⟩ := bind_eq_ok.mp h
  rw [pure_eq_ok] at h
  subst h
  have hstep : ∀ (c : RepairState × FailureCounts) output c',
      countedRepairOutput decoded.1 c output = .ok c' →
      repairOutput decoded.1 c.1 output = .ok c'.1 ∧
        c'.2 = c.2.onUpdates c.1.store.applicationDecodeFailures
          c'.1.store.applicationDecodeFailures := by
    intro c output c' hc
    obtain ⟨r, hr, hc⟩ := bind_eq_ok.mp hc
    rw [pure_eq_ok] at hc
    subst hc
    exact ⟨hr, rfl⟩
  constructor
  · have hplain := foldlM_project Prod.fst (fun c a c' hc ↦ (hstep c a c' hc).1) h₁
    unfold repairTransaction
    rw [bind_eq_ok]
    exact ⟨acc₁.1, hplain, rfl⟩
  · intro hacc
    refine FailureCounts.Matches.update ?_ (finishRepair_length _ _ _)
    have hclear : (fun c : RepairState × FailureCounts ↦
        c.2.Matches c.1.store.applicationDecodeFailures)
        ({ acc.1 with repairedSequences := [] }, acc.2) := hacc
    refine foldlM_invariant (fun c : RepairState × FailureCounts ↦
      c.2.Matches c.1.store.applicationDecodeFailures) ?_ hclear h₁
    intro c output c' _ hc hok
    obtain ⟨hr, hcounts⟩ := hstep c output c' hok
    rw [hcounts]
    exact hc.update (repairOutput_length hr)

/-- **Repair with its triggers.**  It is the repair of the store, and what it reports
as remaining is what the table holds. -/
theorem countedRepair_ok {decoder : ApplicationDecoder} {limit : Nat}
    {result : ApplicationRepairResult} (hcs : cs.Counted)
    (h : countedRepair cs decoder limit = .ok (cs', result)) :
    repairApplicationFailures cs.store decoder limit = .ok (cs'.store, result) ∧
      cs'.Counted := by
  unfold countedRepair at h
  obtain ⟨decoded, hdecoded, h⟩ := bind_eq_ok.mp h
  obtain ⟨⟨r, counts⟩, hloop, h⟩ := bind_eq_ok.mp h
  rw [pure_eq_ok, Prod.mk.injEq] at h
  obtain ⟨rfl, rfl⟩ := h
  have hstart : (fun c : RepairState × FailureCounts ↦
      c.2.Matches c.1.store.applicationDecodeFailures)
      ({ store := cs.store
         next := cs.store.nextStreamSeq
         result := { transactionsScanned := decoded.length } }, cs.counts) := hcs
  have hcounts : counts.Matches r.store.applicationDecodeFailures :=
    foldlM_invariant (fun c : RepairState × FailureCounts ↦
      c.2.Matches c.1.store.applicationDecodeFailures)
      (fun _ _ _ _ hc hok ↦ (countedRepairTransaction_ok hok).2 hc) hstart hloop
  refine ⟨?_, hcounts⟩
  have hplain := foldlM_project Prod.fst
    (fun c a c' hc ↦ (countedRepairTransaction_ok hc).1) hloop
  unfold repairApplicationFailures
  rw [bind_eq_ok]
  refine ⟨decoded, hdecoded, bind_eq_ok.mpr ⟨r, hplain, ?_⟩⟩
  rw [hcounts.unrepaired, Int.toNat_natCast]
  rfl

/-- **The counters of every run.**  Whatever the calls, the decoders and the limits,
`total` counts the failures stored and `unrepaired` those not repaired. -/
theorem counted_run (ops : List ApplicationOp) (hcs : cs.Counted) :
    (ApplicationOp.run dec cs ops).Counted := by
  refine Runs.run_invariant CountedStore.Counted ?_ ops hcs
  intro cs op cs' hcs hop
  cases op with
  | apply block => exact (countedApply_ok hop).2 hcs
  | rollback removed => exact (countedRollback_ok hop).2 hcs
  | repair decoder limit =>
      obtain ⟨result, hok⟩ := map_fst_eq_ok hop
      exact (countedRepair_ok hcs hok).2

end Kascov
