import Kascov.Store.RollbackEffect

/-!
# What a backfill and a repair leave behind

The two remaining writers of the delivery log go through their work one row at a
time, so their effects are stated for one row: `backfilledRow` for a backfilled
event, `repairedOutput` for a repaired application output.
-/

namespace Kascov

open Fallible

/-! ## Backfill -/

/-- The store after one event is backfilled. -/
def backfilledRow (s : Store) (next : Nat) (row : EventRow) : Store :=
  { s.appendDelivery (backfillRecord s.streamEpoch next row) with
    covenantEvents := stampEvent next row s.covenantEvents
    canonicalBatches :=
      upsertBackfilledBatch row.acceptingBlock row.acceptingDaa next s.canonicalBatches }

theorem backfillRow_ok {acc acc' : Store × Nat} {row : EventRow}
    (h : backfillRow acc row = .ok acc') :
    acc' = (backfilledRow acc.1 acc.2 row, acc.2 + 1) := by
  obtain ⟨s, next⟩ := acc
  simp only [backfillRow] at h
  obtain ⟨s₁, h₁, h⟩ := bind_eq_ok.mp h
  obtain ⟨n, hn, h⟩ := bind_eq_ok.mp h
  rw [pure_eq_ok] at h
  rw [← h, insertDelivery_ok h₁, checkedNextStreamSeq_ok hn]
  rfl

/-- **Backfill, inverted.**  A backfill that returned either had nothing left to
do, or ran its loop; the flags it then sets are no part of the log. -/
theorem backfillDeliveryBatch_ok {s s' : Store} {batchSize : Nat}
    {p : DeliveryMigrationProgress}
    (h : backfillDeliveryBatch s batchSize = .ok (s', p)) :
    s' = s ∨ ∃ s₁ next complete start order,
      (backfillRows s (clamp batchSize 1 10000)).foldlM backfillRow (s, s.nextStreamSeq) =
        .ok (s₁, next) ∧
      s' = { s₁ with
        nextStreamSeq := next
        deliveryBackfillComplete := complete
        deliveryHistoryStartDaa := start
        deliveryHistoryOrderComplete := order } := by
  unfold backfillDeliveryBatch at h
  split at h
  · rw [Except.ok.injEq, Prod.mk.injEq] at h
    exact .inl h.1.symm
  · obtain ⟨⟨s₁, next⟩, h₁, h⟩ := bind_eq_ok.mp h
    rw [pure_eq_ok, Prod.mk.injEq] at h
    obtain ⟨rfl, -⟩ := h
    refine .inr ⟨s₁, next, ?_⟩
    split
    · exact ⟨_, _, _, h₁, rfl⟩
    · exact ⟨_, _, _, h₁, rfl⟩

/-- The rows of a backfill batch are unstamped events, each taken once. -/
theorem mem_backfillRows {s : Store} {limit : Nat} {row : EventRow}
    (h : row ∈ backfillRows s limit) :
    row ∈ s.covenantEvents ∧ row.deliveryStreamSeq = none := by
  have hsort := List.mem_of_mem_take h
  rw [List.mem_insertionSort] at hsort
  simpa using hsort

theorem backfillRows_nodup {s : Store} (limit : Nat) (h : s.covenantEvents.Nodup) :
    (backfillRows s limit).Nodup := by
  have hperm := List.perm_insertionSort (fun a b => backfillKey a ≤ backfillKey b)
    (s.covenantEvents.filter (·.deliveryStreamSeq = none))
  exact (hperm.nodup_iff.mpr (h.filter _)).sublist (List.take_sublist _ _)

/-! ## Repair -/

/-- The store after one application output is repaired. -/
def repairedOutput (s : Store) (next : Nat) (txid : TxId) (output : ApplicationOutput)
    (stored : UtxoRow) (event : EventRow) : Store :=
  { s.appendDelivery (repairRecord s.streamEpoch next txid output event) with
    applicationOutputs := s.applicationOutputs ++ [repairedRow txid output stored]
    applicationDecodeFailures := markRepaired next
      (fun row ↦ row.txid = txid && row.failure.outputIndex = some output.outputIndex)
      s.applicationDecodeFailures
    optionalProjectionWork := enqueueAll s.optionalProjectionWork
      [(next, output.covenantId)] }

/-- One output of a repair either changes nothing, or repairs an output that was
not projected yet. -/
theorem repairOutput_ok {transaction : Transaction} {r r' : RepairState}
    {output : ApplicationOutput} (h : repairOutput transaction r output = .ok r') :
    r' = r ∨ ∃ stored event,
      repairTarget r.store transaction output = some (stored, event) ∧
      (∀ row ∈ r.store.applicationOutputs,
        row.outpoint ≠ ⟨transaction.txid, output.outputIndex⟩) ∧
      r'.store = repairedOutput r.store r.next transaction.txid output stored event ∧
      r'.next = r.next + 1 := by
  unfold repairOutput at h
  split at h
  · exact .inl (Except.ok.inj h).symm
  · rename_i stored event htarget
    split at h
    · exact .inl (Except.ok.inj h).symm
    · rename_i hany
      obtain ⟨s₁, h₁, h⟩ := bind_eq_ok.mp h
      obtain ⟨n, hn, h⟩ := bind_eq_ok.mp h
      rw [pure_eq_ok] at h
      subst h
      refine .inr ⟨stored, event, htarget, ?_, ?_, checkedNextStreamSeq_ok hn⟩
      · intro row hrow heq
        exact hany (List.any_eq_true.mpr ⟨row, hrow, by simpa using heq⟩)
      · rw [insertDelivery_ok h₁]
        rfl

/-- The close of a transaction's repair touches failures and envelopes only. -/
theorem finishRepair_frame (transaction : Transaction) (application : ApplicationPreprocess)
    (r : RepairState) :
    ∃ failures envelopes, (finishRepair transaction application r).next = r.next ∧
      (finishRepair transaction application r).store = { r.store with
        applicationDecodeFailures := failures
        applicationEnvelopes := envelopes } := by
  unfold finishRepair
  simp only
  split
  · exact ⟨_, _, rfl, rfl⟩
  · exact ⟨_, _, rfl, rfl⟩

/-- **Invariants of a repair.**  What every repaired output keeps, and what does
not look at failures and envelopes, holds after the whole repair. -/
theorem repair_invariant {s s' : Store} {decoder : ApplicationDecoder} {limit : Nat}
    {result : ApplicationRepairResult} (P : Store → Nat → Prop)
    (step : ∀ s next (transaction : Transaction) output stored event, P s next →
      repairTarget s transaction output = some (stored, event) →
      (∀ row ∈ s.applicationOutputs, row.outpoint ≠ ⟨transaction.txid, output.outputIndex⟩) →
      P (repairedOutput s next transaction.txid output stored event) (next + 1))
    (frame : ∀ (s : Store) next failures envelopes, P s next →
      P { s with
        applicationDecodeFailures := failures
        applicationEnvelopes := envelopes } next)
    (hs : P s s.nextStreamSeq)
    (h : repairApplicationFailures s decoder limit = .ok (s', result)) :
    ∃ s₁ next, P s₁ next ∧ s' = { s₁ with nextStreamSeq := next } := by
  unfold repairApplicationFailures at h
  obtain ⟨decoded, _, h⟩ := bind_eq_ok.mp h
  obtain ⟨r, h₁, h⟩ := bind_eq_ok.mp h
  rw [pure_eq_ok, Prod.mk.injEq] at h
  obtain ⟨rfl, -⟩ := h
  refine ⟨r.store, r.next, ?_, rfl⟩
  refine foldlM_invariant (fun r : RepairState ↦ P r.store r.next) ?_ hs h₁
  intro r d r' _ hr hd
  unfold repairTransaction at hd
  obtain ⟨r₁, h₂, hd⟩ := bind_eq_ok.mp hd
  rw [pure_eq_ok] at hd
  subst hd
  have hr₁ : P r₁.store r₁.next := by
    have hclear : (fun r : RepairState ↦ P r.store r.next)
        { r with repairedSequences := [] } := hr
    refine foldlM_invariant (fun r : RepairState ↦ P r.store r.next) ?_ hclear h₂
    intro a output b _ ha hb
    rcases repairOutput_ok hb with rfl | ⟨stored, event, htarget, hfresh, hstore, hnext⟩
    · exact ha
    · rw [hstore, hnext]
      exact step a.store a.next d.1 output stored event ha htarget hfresh
  obtain ⟨failures, envelopes, hnext, hstore⟩ := finishRepair_frame d.1 d.2 r₁
  rw [hnext, hstore]
  exact frame r₁.store r₁.next failures envelopes hr₁

end Kascov
