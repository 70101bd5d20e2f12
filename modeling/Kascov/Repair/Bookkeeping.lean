import Kascov.Repair.Counts
import Kascov.Repair.Loop

/-!
# The bookkeeping of repair

The failure table, the envelopes' statuses and the counters stay in step through any
run of applies, rollbacks and repairs in which a repair's decoder answers for what the
store can take, and a repair that has nothing left to change has nothing left to do.
The counters need no condition (`counted_run`); the statuses and the completeness do,
because the close of a transaction's repair sets the status by the decoder's word
alone, and because the batch is always the head of the queue.
-/

namespace Kascov

open Fallible

/-! ## The tables at rest -/

/-- Envelopes and failures in step: a transaction has one envelope, a failure lies in
the block of its envelope, and a status is `valid` when no failure is unrepaired. -/
structure Accounted (envelopes : List EnvelopeRow) (rows : List DecodeFailureRow) : Prop where
  unique : (envelopes.map (·.txid)).Nodup
  owned : ∀ row ∈ rows, ∃ envelope ∈ envelopes, envelope.txid = row.txid ∧
    envelope.acceptingBlock = row.acceptingBlock ∧ envelope.transactionJson ≠ none
  status : ∀ envelope ∈ envelopes, envelope.status = .valid ↔
    ∀ row ∈ rows, row.txid = envelope.txid → row.unrepaired = false

/-- The invariant, of a store. -/
def Store.Accounted (s : Store) : Prop :=
  Kascov.Accounted s.applicationEnvelopes s.applicationDecodeFailures

theorem accounted_fresh (epoch : StreamEpoch) : (Store.fresh epoch).Accounted where
  unique := List.nodup_nil
  owned := fun _ h ↦ absurd h List.not_mem_nil
  status := fun _ h ↦ absurd h List.not_mem_nil

variable {envelopes : List EnvelopeRow} {rows : List DecodeFailureRow}

/-- A transaction with an envelope of its own and its failures. -/
theorem Accounted.append (h : Accounted envelopes rows) {envelope : EnvelopeRow}
    {new : List DecodeFailureRow} (hfresh : ∀ old ∈ envelopes, old.txid ≠ envelope.txid)
    (hjson : envelope.transactionJson ≠ none)
    (hnew : ∀ row ∈ new, row.txid = envelope.txid ∧
      row.acceptingBlock = envelope.acceptingBlock ∧ row.unrepaired = true)
    (hstatus : envelope.status = .valid ↔ new = []) :
    Accounted (envelopes ++ [envelope]) (rows ++ new) := by
  have hother : ∀ row ∈ rows, row.txid ≠ envelope.txid := by
    intro row hrow heq
    obtain ⟨old, hold, htxid, -, -⟩ := h.owned row hrow
    exact hfresh old hold (htxid.trans heq)
  constructor
  · rw [List.map_append, List.nodup_append]
    refine ⟨h.unique, List.nodup_singleton _, ?_⟩
    intro a ha b hb
    obtain ⟨old, hold, rfl⟩ := List.mem_map.mp ha
    obtain rfl := List.mem_singleton.mp hb
    exact hfresh old hold
  · intro row hrow
    rcases List.mem_append.mp hrow with hrow | hrow
    · obtain ⟨old, hold, hof⟩ := h.owned row hrow
      exact ⟨old, List.mem_append_left _ hold, hof⟩
    · obtain ⟨htxid, hblock, -⟩ := hnew row hrow
      exact ⟨envelope, List.mem_append_right _ List.mem_cons_self, htxid.symm, hblock.symm, hjson⟩
  · intro e he
    rcases List.mem_append.mp he with he | he
    · rw [h.status e he]
      constructor
      · intro hold row hrow heq
        rcases List.mem_append.mp hrow with hrow | hrow
        · exact hold row hrow heq
        · exact absurd (heq.symm.trans (hnew row hrow).1) (hfresh e he)
      · exact fun hall row hrow ↦ hall row (List.mem_append_left _ hrow)
    · obtain rfl := List.mem_singleton.mp he
      rw [hstatus]
      constructor
      · rintro rfl row hrow heq
        rw [List.append_nil] at hrow
        exact absurd heq (hother row hrow)
      · intro hall
        rw [List.eq_nil_iff_forall_not_mem]
        intro row hrow
        have hclosed := hall row (List.mem_append_right _ hrow) (hnew row hrow).1
        rw [(hnew row hrow).2.2] at hclosed
        cases hclosed

/-- Envelopes and failures of removed blocks go together. -/
theorem Accounted.filter (h : Accounted envelopes rows) (hashes : List BlockHash) :
    Accounted (envelopes.filter (·.acceptingBlock ∉ hashes))
      (rows.filter (·.acceptingBlock ∉ hashes)) := by
  constructor
  · exact h.unique.sublist (List.filter_sublist.map _)
  · intro row hrow
    obtain ⟨hrow, hkept⟩ := List.mem_filter.mp hrow
    obtain ⟨envelope, henv, htxid, hblock, hjson⟩ := h.owned row hrow
    refine ⟨envelope, List.mem_filter.mpr ⟨henv, ?_⟩, htxid, hblock, hjson⟩
    rwa [hblock]
  · intro envelope henv
    obtain ⟨henv, hkept⟩ := List.mem_filter.mp henv
    rw [h.status envelope henv]
    constructor
    · exact fun hall row hrow ↦ hall row (List.mem_filter.mp hrow).1
    · intro hall row hrow heq
      obtain ⟨owner, howner, htxid, hblock, -⟩ := h.owned row hrow
      obtain rfl : owner = envelope :=
        List.inj_on_of_nodup_map h.unique howner henv (htxid.trans heq)
      exact hall row (List.mem_filter.mpr ⟨hrow, by rwa [← hblock]⟩) heq

/-! ## Apply and rollback -/

/-- Every decoding that found a failure kept the raw envelope. -/
def KeepsEnvelopes (block : AcceptedBlockBatch) : Prop :=
  ∀ accepted ∈ block.transactions, accepted.application.failures ≠ [] →
    accepted.application.rawEnvelope ≠ none

theorem mem_newFailureRows {block : AcceptedBlockBatch} {last : Nat} {txid : TxId}
    {failures : List DecodeFailure} {row : DecodeFailureRow}
    (h : row ∈ newFailureRows block last (failures.map (txid, ·))) :
    row.txid = txid ∧ row.acceptingBlock = block.acceptingBlock ∧ row.unrepaired = true := by
  obtain ⟨⟨⟨t, failure⟩, n⟩, hmem, rfl⟩ := List.mem_map.mp h
  obtain ⟨-, -, heq⟩ := List.mem_zipIdx hmem
  refine ⟨?_, rfl, rfl⟩
  have htxid : (t, failure) ∈ failures.map (txid, ·) := heq ▸ List.getElem_mem _
  obtain ⟨_, -, heq⟩ := List.mem_map.mp htxid
  exact (congrArg Prod.fst heq).symm

theorem envelopeStatus_eq_valid {application : ApplicationPreprocess} :
    envelopeStatus application = .valid ↔ application.failures = [] := by
  unfold envelopeStatus
  split
  · simp [*]
  · split <;> simp [*]

theorem accounted_applyAcceptedTransaction {block : AcceptedBlockBatch} {s s' : Store}
    {accepted : AcceptedTransaction} (hs : s.Accounted)
    (hkeeps : accepted.application.failures ≠ [] → accepted.application.rawEnvelope ≠ none)
    (h : applyAcceptedTransaction block s accepted = .ok s') : s'.Accounted := by
  have hrows := applyAcceptedTransaction_ok h
  unfold applyAcceptedTransaction at h
  obtain ⟨envelopes, henv, -⟩ := bind_eq_ok.mp h
  subst hrows
  have hnew : newFailures [accepted] =
      accepted.application.failures.map (accepted.txid, ·) := by
    simp [newFailures]
  unfold Store.Accounted transactionsStore
  simp only [hnew]
  cases hrow : envelopeRow block accepted with
  | none =>
      have hraw : accepted.application.rawEnvelope = none := by
        simpa [envelopeRow] using hrow
      have hnil : accepted.application.failures = [] := by
        by_contra hne
        exact hkeeps hne hraw
      simpa [hrow, hnil, newFailureRows, Store.Accounted] using hs
  | some row =>
      have hfresh : ∀ old ∈ s.applicationEnvelopes, old.txid ≠ row.txid := by
        intro old hold heq
        obtain ⟨raw, -, rfl⟩ := Option.map_eq_some_iff.mp hrow
        unfold insertEnvelope at henv
        simp only [hrow] at henv
        rw [if_pos (List.any_eq_true.mpr ⟨old, hold, by simpa using heq⟩)] at henv
        cases henv
      obtain ⟨raw, -, rfl⟩ := Option.map_eq_some_iff.mp hrow
      rw [List.filterMap_cons_some hrow, List.filterMap_nil]
      refine Accounted.append hs hfresh (by simp) (fun row hmem ↦ mem_newFailureRows hmem) ?_
      rw [envelopeStatus_eq_valid]
      simp [newFailureRows]

theorem accounted_apply {dec : Decoders} {s s' : Store} {block : AcceptedBlockBatch}
    {c : CommittedBatch} (hs : s.Accounted) (hkeeps : KeepsEnvelopes block)
    (h : applyAcceptedBlock dec s block = .ok (s', c)) : s'.Accounted := by
  unfold applyAcceptedBlock at h
  split at h
  · cases h
  · cases hc : s.canonicalBatchDaa block.acceptingBlock with
    | some daa =>
        simp only [hc, Except.ok.injEq, Prod.mk.injEq] at h
        exact h.1 ▸ hs
    | none =>
        simp only [hc] at h
        obtain ⟨s₁, h₁, h⟩ := bind_eq_ok.mp h
        rw [pure_eq_ok, Prod.mk.injEq] at h
        obtain ⟨rfl, -⟩ := h
        have happlied := applyNewBlock_ok h₁
        unfold applyNewBlock at h₁
        obtain ⟨⟨s₂, next⟩, hevents, h₁⟩ := bind_eq_ok.mp h₁
        obtain ⟨s₃, haccepted, -⟩ := bind_eq_ok.mp h₁
        have hfold := foldlM_eq_foldl (fun _ _ _ ↦ applyEvent_ok) hevents
        rw [foldl_applyEventEffect, Prod.mk.injEq] at hfold
        have hs₂ : s₂.Accounted := by
          rw [hfold.1]
          exact hs
        have hshape := applyAccepted_ok haccepted
        unfold applyAccepted at haccepted
        obtain ⟨s₄, hloop, haccepted⟩ := bind_eq_ok.mp haccepted
        rw [pure_eq_ok] at haccepted
        have hs₄ : s₄.Accounted := foldlM_invariant Store.Accounted
          (fun s accepted s' hmem hs hok ↦
            accounted_applyAcceptedTransaction hs (hkeeps accepted hmem) hok) hs₂ hloop
        subst happlied
        rw [← haccepted] at hshape
        have henvelopes := congrArg Store.applicationEnvelopes hshape
        have hfailures := congrArg Store.applicationDecodeFailures hshape
        unfold Store.Accounted at hs₄ ⊢
        simp only at henvelopes hfailures
        rw [henvelopes, hfailures, hfold.1] at hs₄
        exact hs₄

theorem accounted_rollback {s s' : Store} {removed : List BlockHash}
    {c : CommittedRemovalBatch} (hs : s.Accounted)
    (h : rollbackRemovedBlocks s removed = .ok (s', c)) : s'.Accounted := by
  rcases (rollbackRemovedBlocks_ok h).2 with ⟨-, rfl, -⟩ | ⟨-, rfl, -⟩
  · exact hs
  · exact Accounted.filter hs _

/-! ## Repair -/

/-- The condition of a repair call.  For each envelope of the batch, the decoder finds
no failure exactly when every failure still unrepaired is one the repair settles; and
when it decodes a failure of any queued envelope, then some envelope of the batch gets an
output that may be inserted. -/
structure RepairMeets (s : Store) (decoder : ApplicationDecoder) (limit : Nat) : Prop where
  honest : ∀ candidate ∈ repairCandidates s limit,
    (decoder candidate.2).failures = [] ↔
      ∀ row ∈ s.applicationDecodeFailures, row.txid = candidate.1 → row.unrepaired = true →
        Settles s candidate.2 (decoder candidate.2) row
  reach : (∃ candidate ∈ repairQueue s, ∃ row ∈ s.applicationDecodeFailures,
      row.txid = candidate.1 ∧ row.unrepaired = true ∧ Decodes (decoder candidate.2) row) →
    ∃ candidate ∈ repairCandidates s limit, ∃ output ∈ (decoder candidate.2).outputs,
      Insertable s candidate.2 output

instance (s : Store) (decoder : ApplicationDecoder) (limit : Nat) :
    Decidable (RepairMeets s decoder limit) :=
  decidable_of_iff (_ ∧ _) ⟨fun h ↦ ⟨h.1, h.2⟩, fun h ↦ ⟨h.honest, h.reach⟩⟩

variable {s s' : Store} {decoder : ApplicationDecoder} {limit : Nat}
variable {result : ApplicationRepairResult}

@[simp] theorem setStatus_txid (d : Transaction × ApplicationPreprocess)
    (envelope : EnvelopeRow) : (setStatus d envelope).txid = envelope.txid := by
  unfold setStatus
  split <;> rfl

/-- Statuses aside, a repair leaves an envelope as it was. -/
theorem foldl_setStatus (decoded : List (Transaction × ApplicationPreprocess))
    (envelope : EnvelopeRow) :
    ∃ status, decoded.foldl (fun envelope d ↦ setStatus d envelope) envelope =
      { envelope with status } := by
  induction decoded generalizing envelope with
  | nil => exact ⟨envelope.status, rfl⟩
  | cons d rest ih =>
      obtain ⟨status, heq⟩ := ih (setStatus d envelope)
      refine ⟨status, ?_⟩
      rw [List.foldl_cons, heq]
      unfold setStatus
      split <;> rfl

/-- The status of an envelope of the batch is what its decoding says. -/
theorem foldl_setStatus_of_mem {decoded : List (Transaction × ApplicationPreprocess)}
    (hnodup : (decoded.map (·.1.txid)).Nodup) {d : Transaction × ApplicationPreprocess}
    (hd : d ∈ decoded) {envelope : EnvelopeRow} (heq : envelope.txid = d.1.txid) :
    decoded.foldl (fun envelope d ↦ setStatus d envelope) envelope =
      { envelope with status := envelopeStatus d.2 } := by
  rw [Rows.foldl_eq_of_touch setStatus (fun d envelope ↦ envelope.txid = d.1.txid)
    (fun d envelope h ↦ if_neg h) (fun d d' envelope ↦ by rw [setStatus_txid]) ?_ hd heq]
  · exact if_pos heq
  · have hpair : decoded.Pairwise fun d d' ↦ d.1.txid ≠ d'.1.txid := List.pairwise_map.mp hnodup
    exact hpair.imp fun hne envelope h h' ↦ hne (h.symm.trans h')

/-- An envelope outside the batch keeps its status. -/
theorem foldl_setStatus_of_notMem {decoded : List (Transaction × ApplicationPreprocess)}
    {envelope : EnvelopeRow} (h : ∀ d ∈ decoded, envelope.txid ≠ d.1.txid) :
    decoded.foldl (fun envelope d ↦ setStatus d envelope) envelope = envelope :=
  Rows.foldl_eq_self setStatus (fun d envelope ↦ envelope.txid = d.1.txid)
    (fun _ _ hne ↦ if_neg hne) h

/-- The row a failure was before the repair. -/
theorem exists_of_forall₂_marks {reason : DecodeFailureRow → Prop}
    {rows rows' : List DecodeFailureRow} (h : List.Forall₂ (Marks reason) rows rows')
    {row' : DecodeFailureRow} (hrow : row' ∈ rows') :
    ∃ row ∈ rows, row'.txid = row.txid ∧ row'.acceptingBlock = row.acceptingBlock := by
  induction h with
  | nil => cases hrow
  | @cons row row' rows rows' hmarks _ ih =>
      rcases List.mem_cons.mp hrow with rfl | hrow
      · obtain rfl | ⟨-, -, seq, rfl⟩ := hmarks
        · exact ⟨_, List.mem_cons_self, rfl, rfl⟩
        · exact ⟨_, List.mem_cons_self, rfl, rfl⟩
      · obtain ⟨row, hmem, hof⟩ := ih hrow
        exact ⟨row, List.mem_cons_of_mem _ hmem, hof⟩

/-- A failure that stays unrepaired, and one that becomes repaired, by whether the
batch settles it. -/
theorem RepairEffect.mem_unrepaired (h : RepairEffect s decoder limit s' result)
    {row : DecodeFailureRow} (hrow : row ∈ s.applicationDecodeFailures)
    (hnot : ¬SettledBy s (decodedBatch s decoder limit) row) :
    row ∈ s'.applicationDecodeFailures :=
  mem_of_not_reason h.failures hrow hnot

/-- After a repair that met its condition the statuses are right again. -/
theorem RepairEffect.status (hs : s.Accounted) (hmeets : RepairMeets s decoder limit)
    (h : RepairEffect s decoder limit s' result) {envelope : EnvelopeRow}
    (henv : envelope ∈ s.applicationEnvelopes) :
    ((decodedBatch s decoder limit).foldl (fun envelope d ↦ setStatus d envelope)
      envelope).status = .valid ↔
    ∀ row ∈ s'.applicationDecodeFailures, row.txid = envelope.txid →
      row.unrepaired = false := by
  have hnodup := decodedBatch_nodup decoder h.keys hs.unique
  by_cases hbatch : ∃ candidate ∈ repairCandidates s limit, candidate.1 = envelope.txid
  · obtain ⟨candidate, hc, hkey⟩ := hbatch
    have hd : (candidate.2, decoder candidate.2) ∈ decodedBatch s decoder limit :=
      List.mem_map_of_mem hc
    have htxid : candidate.2.txid = envelope.txid := (h.keys candidate hc).trans hkey
    rw [foldl_setStatus_of_mem hnodup hd htxid.symm, envelopeStatus_eq_valid]
    constructor
    · intro hempty row hrow heq
      rw [repairCandidates_eq] at hc
      obtain ⟨-, -, -, -, failure, hfailure, hof, hopen⟩ :=
        mem_repairQueue.mp (List.mem_of_mem_take hc)
      obtain ⟨output, ho, hins, -⟩ := (hmeets.honest candidate hc).mp hempty failure hfailure
        hof hopen
      exact (h.repaired _ hd).cleared hempty ⟨output, ho, hins⟩ row hrow (heq.trans htxid.symm)
    · intro hclosed
      by_contra hne
      rw [(hmeets.honest candidate hc)] at hne
      push Not at hne
      obtain ⟨row, hrow, hof, hopen, hnot⟩ := hne
      have hstays : row ∈ s'.applicationDecodeFailures := by
        refine h.mem_unrepaired hrow ?_
        rintro ⟨d, hmem, heq, hsettles⟩
        obtain rfl : d = (candidate.2, decoder candidate.2) :=
          List.inj_on_of_nodup_map hnodup hmem hd
            (heq.symm.trans (hof.trans (h.keys candidate hc).symm))
        exact hnot hsettles
      have := hclosed row hstays (hof.trans hkey)
      rw [hopen] at this
      cases this
  · have hout : ∀ d ∈ decodedBatch s decoder limit, envelope.txid ≠ d.1.txid := by
      intro d hd heq
      obtain ⟨candidate, hc, rfl⟩ := List.mem_map.mp hd
      exact hbatch ⟨candidate, hc, (h.keys candidate hc).symm.trans heq.symm⟩
    rw [foldl_setStatus_of_notMem hout, hs.status envelope henv]
    have hunsettled : ∀ row : DecodeFailureRow, row.txid = envelope.txid →
        ¬SettledBy s (decodedBatch s decoder limit) row := by
      rintro row heq ⟨d, hd, hof, -⟩
      exact hout d hd (heq.symm.trans hof)
    constructor
    · intro hclosed row hrow heq
      by_contra hopen
      rw [Bool.not_eq_false] at hopen
      have := hclosed row (mem_of_forall₂_marks h.failures hrow hopen) heq
      rw [hopen] at this
      cases this
    · exact fun hclosed row hrow heq ↦
        hclosed row (h.mem_unrepaired hrow (hunsettled row heq)) heq

theorem accounted_repair (hs : s.Accounted) (hmeets : RepairMeets s decoder limit)
    (h : RepairEffect s decoder limit s' result) : s'.Accounted := by
  unfold Store.Accounted
  rw [h.envelopes]
  constructor
  · rw [List.map_map]
    have hsame : ∀ envelope ∈ s.applicationEnvelopes, ((·.txid) ∘ fun envelope ↦
        (decodedBatch s decoder limit).foldl (fun envelope d ↦ setStatus d envelope)
          envelope) envelope = envelope.txid := by
      intro envelope _
      obtain ⟨status, heq⟩ := foldl_setStatus (decodedBatch s decoder limit) envelope
      rw [Function.comp_apply, heq]
    rw [List.map_congr_left hsame]
    exact hs.unique
  · intro row' hrow'
    obtain ⟨row, hrow, htxid, hblock⟩ := exists_of_forall₂_marks h.failures hrow'
    obtain ⟨envelope, henv, hof, hin, hjson⟩ := hs.owned row hrow
    obtain ⟨status, heq⟩ := foldl_setStatus (decodedBatch s decoder limit) envelope
    refine ⟨_, List.mem_map_of_mem henv, ?_⟩
    rw [heq]
    exact ⟨hof.trans htxid.symm, hin.trans hblock.symm, hjson⟩
  · intro envelope' henv'
    obtain ⟨envelope, henv, rfl⟩ := List.mem_map.mp henv'
    have htxid : ((decodedBatch s decoder limit).foldl (fun envelope d ↦ setStatus d envelope)
        envelope).txid = envelope.txid := by
      obtain ⟨status, heq⟩ := foldl_setStatus (decodedBatch s decoder limit) envelope
      rw [heq]
    rw [htxid]
    exact h.status hs hmeets henv

/-! ## Runs -/

/-- No unrepaired failure is left that the decoder decodes from the transaction its
envelope keeps. -/
def RepairComplete (s : Store) (decoder : ApplicationDecoder) : Prop :=
  ∀ row ∈ s.applicationDecodeFailures, row.unrepaired = true →
    ∀ envelope ∈ s.applicationEnvelopes, ∀ transaction, envelope.txid = row.txid →
      envelope.transactionJson = some transaction → ¬Decodes (decoder transaction) row

/-- What holds of an index between two calls, and of a repair made of it. -/
structure Bookkeeping (cs : CountedStore) : Prop where
  counters : cs.counts = {
    total := cs.store.applicationDecodeFailures.length
    unrepaired := cs.store.applicationDecodeFailures.countP (·.unrepaired) }
  status : ∀ envelope ∈ cs.store.applicationEnvelopes, envelope.status = .valid ↔
    ∀ row ∈ cs.store.applicationDecodeFailures, row.txid = envelope.txid →
      row.unrepaired = false
  /-- Every failure has an envelope that keeps its transaction. -/
  stored : ∀ row ∈ cs.store.applicationDecodeFailures,
    ∃ envelope ∈ cs.store.applicationEnvelopes, envelope.txid = row.txid ∧
      envelope.transactionJson ≠ none
  /-- A repair inserts what the decoder gave for a transaction of its batch, at outpoints
  that had no row. -/
  inserts : ∀ decoder limit cs' result, countedRepair cs decoder limit = .ok (cs', result) →
    ∃ new, cs'.store.applicationOutputs = cs.store.applicationOutputs ++ new ∧
      (new.map (·.outpoint)).Nodup ∧ ∀ row ∈ new,
        (∃ candidate ∈ repairCandidates cs.store limit, row.txid = candidate.1 ∧
          row.output ∈ (decoder candidate.2).outputs) ∧
        ∀ old ∈ cs.store.applicationOutputs, old.outpoint ≠ row.outpoint
  /-- A repair changes a failure only by marking it, and marks only what the decoder
  decodes. -/
  marks : ∀ decoder limit cs' result, countedRepair cs decoder limit = .ok (cs', result) →
    List.Forall₂ (Marks fun row ↦ ∃ candidate ∈ repairCandidates cs.store limit,
        row.txid = candidate.1 ∧ Decodes (decoder candidate.2) row)
      cs.store.applicationDecodeFailures cs'.store.applicationDecodeFailures
  /-- A repair that changes nothing has nothing left to decode, and the next one inserts
  and delivers nothing. -/
  complete : ∀ decoder limit result, RepairMeets cs.store decoder limit →
    countedRepair cs decoder limit = .ok (cs, result) →
    RepairComplete cs.store decoder ∧ result.outputsRepaired = 0 ∧
      result.deliveriesAppended = 0

/-- The condition of a call. -/
def ApplicationOp.Meets (cs : CountedStore) : ApplicationOp → Prop
  | .apply block => KeepsEnvelopes block
  | .rollback _ => True
  | .repair decoder limit => RepairMeets cs.store decoder limit

theorem RepairEffect.complete (h : RepairEffect s decoder limit s result)
    (hmeets : RepairMeets s decoder limit) :
    RepairComplete s decoder ∧ result.outputsRepaired = 0 ∧ result.deliveriesAppended = 0 := by
  obtain ⟨new, hnew, -, -, hrepaired, happended⟩ := h.outputs
  obtain rfl : new = [] := List.self_eq_append_right.mp hnew
  refine ⟨?_, hrepaired, happended⟩
  intro row hrow hopen envelope henv transaction htxid hjson hdecodes
  have hqueued : (envelope.txid, transaction) ∈ repairQueue s :=
    mem_repairQueue.mpr ⟨envelope, henv, rfl, hjson, row, hrow, htxid.symm, hopen⟩
  obtain ⟨candidate, hc, output, ho, hins⟩ :=
    hmeets.reach ⟨_, hqueued, row, hrow, htxid.symm, hopen, hdecodes⟩
  obtain ⟨old, hold, heq⟩ :=
    (h.repaired (candidate.2, decoder candidate.2) (List.mem_map_of_mem hc)).present output ho hins
  exact hins.2 old hold heq

/-- An index in step has its bookkeeping in order. -/
theorem Bookkeeping.of_accounted {cs : CountedStore} (hcounted : cs.Counted)
    (hs : cs.store.Accounted) : Bookkeeping cs := by
  have heffect : ∀ decoder limit cs' result,
      countedRepair cs decoder limit = .ok (cs', result) →
      RepairEffect cs.store decoder limit cs'.store result := fun decoder limit cs' result h ↦
    repair_effect hs.unique (countedRepair_ok hcounted h).1
  constructor
  · exact FailureCounts.ext hcounted.total hcounted.unrepaired
  · exact hs.status
  · intro row hrow
    obtain ⟨envelope, henv, htxid, -, hjson⟩ := hs.owned row hrow
    exact ⟨envelope, henv, htxid, hjson⟩
  · intro decoder limit cs' result h
    have he := heffect decoder limit cs' result h
    obtain ⟨new, hnew, hnodup, hinserted, -, -⟩ := he.outputs
    refine ⟨new, hnew, hnodup, fun row hrow ↦ ?_⟩
    obtain ⟨d, hd, output, ho, hins, stored, event, -, rfl⟩ := hinserted row hrow
    obtain ⟨candidate, hc, rfl⟩ := List.mem_map.mp hd
    exact ⟨⟨candidate, hc, he.keys candidate hc, ho⟩, hins.2⟩
  · intro decoder limit cs' result h
    have he := heffect decoder limit cs' result h
    refine he.failures.imp ?_
    rintro row row' (rfl | ⟨hopen, ⟨d, hd, hof, hsettles⟩, hmark⟩)
    · exact .inl rfl
    · obtain ⟨candidate, hc, rfl⟩ := List.mem_map.mp hd
      exact .inr ⟨hopen, ⟨candidate, hc, hof.trans (he.keys candidate hc), hsettles.decodes⟩,
        hmark⟩
  · exact fun decoder limit result hmeets h ↦
      (heffect decoder limit cs result h).complete hmeets

/-- **The bookkeeping of every run** whose calls meet their condition. -/
theorem bookkeeping_run {dec : Decoders} {epoch : StreamEpoch} {ops : List ApplicationOp}
    (hops : Runs.Guarded (ApplicationOp.commit dec) ApplicationOp.Meets (.fresh epoch) ops) :
    Bookkeeping (ApplicationOp.run dec (.fresh epoch) ops) := by
  obtain ⟨hcounted, hs⟩ : (ApplicationOp.run dec (.fresh epoch) ops).Counted ∧
      (ApplicationOp.run dec (.fresh epoch) ops).store.Accounted := by
    refine Runs.run_invariant_of_guarded (fun cs ↦ cs.Counted ∧ cs.store.Accounted)
      ApplicationOp.Meets ?_ ⟨counted_fresh epoch, accounted_fresh epoch⟩ hops
    rintro cs op cs' ⟨hcounted, hs⟩ hmeets hop
    cases op with
    | apply block =>
        obtain ⟨⟨c, happly⟩, hkeep⟩ := countedApply_ok hop
        exact ⟨hkeep hcounted, accounted_apply hs hmeets happly⟩
    | rollback removed =>
        obtain ⟨⟨c, hroll⟩, hkeep⟩ := countedRollback_ok hop
        exact ⟨hkeep hcounted, accounted_rollback hs hroll⟩
    | repair decoder limit =>
        obtain ⟨result, hrepair⟩ := map_fst_eq_ok hop
        obtain ⟨hok, hcounted'⟩ := countedRepair_ok hcounted hrepair
        exact ⟨hcounted', accounted_repair hs hmeets (repair_effect hs.unique hok)⟩
  exact .of_accounted hcounted hs

/-! ## Where the batch starves -/

/-- A covenant transaction with one bound output. -/
def boundTransaction (n : BitVec 256) : Transaction where
  txid := ⟨n⟩
  version := 1
  inputs := []
  outputs := [⟨7, 0, [], some ⟨⟨n⟩, 0⟩⟩]
  payload := []

/-- The decoding of a transaction whose application is not approved. -/
def unapproved : ApplicationPreprocess where
  rawEnvelope := some []
  failures := [⟨some 0, some "duel", none, "application_not_approved", "not approved"⟩]

/-- A decoder that has come to decode the second transaction. -/
def lateDecoder : ApplicationDecoder := fun transaction ↦
  if transaction.txid = ⟨2⟩ then
    { rawEnvelope := some []
      outputs := [⟨0, ⟨2⟩, "duel", 3, "Match", "1"⟩] }
  else
    unapproved

/-- A block of two transactions, neither of which was decoded. -/
def undecodedBlock : AcceptedBlockBatch where
  acceptingBlock := ⟨1⟩
  acceptingDaa := 100
  events := [⟨⟨1⟩, .genesis, ⟨1⟩, 0, 0, none, none⟩, ⟨⟨2⟩, .genesis, ⟨2⟩, 1, 0, none, none⟩]
  createdUtxos := [⟨⟨⟨1⟩, 0⟩, ⟨1⟩, 7, 0, []⟩, ⟨⟨⟨2⟩, 0⟩, ⟨2⟩, 7, 0, []⟩]
  transactions := [⟨⟨1⟩, boundTransaction 1, unapproved⟩, ⟨⟨2⟩, boundTransaction 2, unapproved⟩]

/-- The index that holds the block's two failures. -/
def undecodedIndex : CountedStore :=
  ApplicationOp.run .blind (.fresh ⟨1⟩) [.apply undecodedBlock]

/-- A batch of two repairs the second transaction. -/
theorem bookkeeping_run_repair :
    Runs.Guarded (ApplicationOp.commit .blind) ApplicationOp.Meets (.fresh ⟨1⟩)
        [.apply undecodedBlock, .repair lateDecoder 2] ∧
      Bookkeeping (ApplicationOp.run .blind (.fresh ⟨1⟩)
        [.apply undecodedBlock, .repair lateDecoder 2]) := by
  have hops : Runs.Guarded (ApplicationOp.commit .blind) ApplicationOp.Meets (.fresh ⟨1⟩)
      [.apply undecodedBlock, .repair lateDecoder 2] := by
    refine ⟨?_, ?_, trivial⟩
    · unfold ApplicationOp.Meets KeepsEnvelopes
      decide
    · unfold ApplicationOp.Meets
      decide +kernel
  exact ⟨hops, bookkeeping_run hops⟩

/-- A batch of one is filled by the first transaction, so the call changes nothing, for
ever, and the failure the decoder decodes stays. -/
theorem repair_starves :
    countedRepair undecodedIndex lateDecoder 1 =
        .ok (undecodedIndex, { transactionsScanned := 1, failuresRemaining := 2 }) ∧
      ¬RepairComplete undecodedIndex.store lateDecoder := by
  constructor
  · decide +kernel
  · unfold RepairComplete
    intro h
    have hrow : ∃ row ∈ undecodedIndex.store.applicationDecodeFailures, row.txid = ⟨2⟩ ∧
        row.unrepaired = true := by
      decide +kernel
    have henv : ∃ envelope ∈ undecodedIndex.store.applicationEnvelopes, envelope.txid = ⟨2⟩ ∧
        envelope.transactionJson = some (boundTransaction 2) := by
      decide +kernel
    obtain ⟨row, hrow, htxid, hopen⟩ := hrow
    obtain ⟨envelope, henv, hof, hjson⟩ := henv
    exact h row hrow hopen envelope henv _ (hof.trans htxid.symm) hjson (.inl rfl)

end Kascov
