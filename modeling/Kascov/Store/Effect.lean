import Kascov.Lib.Fallible
import Kascov.Lib.Rows
import Kascov.Store.Blocks

/-!
# What a successful write leaves behind

The writers of the store are loops that may fail half way, inside a
transaction.  This file says what each leaves when it commits, as a closed form
of the tables before it: `appliedStore` for an applied block and
`rolledBackStore` for a rollback.  Later files argue about these and never
unfold the loops again.
-/

namespace Kascov

open Fallible

theorem map_fst_eq_ok {α β : Type} {x : Result (α × β)} {a : α}
    (h : x.map (·.1) = .ok a) : ∃ b, x = .ok (a, b) := by
  cases x with
  | error e => cases h
  | ok p => exact ⟨p.2, by rw [← Except.ok.inj h]⟩

theorem checkedNextStreamSeq_ok {next n : Nat} (h : checkedNextStreamSeq next = .ok n) :
    n = next + 1 := by
  unfold checkedNextStreamSeq at h
  split at h
  · exact (Except.ok.inj h).symm
  · cases h

/-! ## Appending a record -/

namespace Store

/-- The log and its index with one more record. -/
def appendDelivery (s : Store) (record : DeliveryRecord) : Store :=
  { s with
    deliveryLog := s.deliveryLog ++ [record]
    deliveryApplications := s.deliveryApplications ++
      record.applications.map (applicationRow record.cursor.seq) }

end Store

theorem insertDeliveryApplication_ok {seq : Nat} {rows rows' : List DeliveryApplicationRow}
    {application : ApplicationOutput}
    (h : insertDeliveryApplication seq rows application = .ok rows') :
    rows' = rows ++ [applicationRow seq application] := by
  unfold insertDeliveryApplication at h
  split at h
  · cases h
  · exact (Except.ok.inj h).symm

theorem insertDelivery_ok {s s' : Store} {record : DeliveryRecord}
    (h : insertDelivery s record = .ok s') : s' = s.appendDelivery record := by
  unfold insertDelivery at h
  split at h
  · cases h
  · obtain ⟨rows, hrows, h⟩ := bind_eq_ok.mp h
    have hfold := foldlM_eq_foldl (fun _ _ _ ↦ insertDeliveryApplication_ok) hrows
    rw [Rows.foldl_append_map] at hfold
    rw [pure_eq_ok] at h
    rw [← h, hfold, Store.appendDelivery]

/-! ## Events of a block -/

/-- The events of a batch with the covenant sequence and the stream sequence
each is inserted under. -/
def numberEvents (dec : Decoders) (block : AcceptedBlockBatch) :
    List EventRow → Nat → List NewEvent → List (NewEvent × Int × Nat)
  | _, _, [] => []
  | rows, next, event :: rest =>
      let seq := nextEventSeq rows event.covenantId
      (event, seq, next) ::
        numberEvents dec block (rows ++ [eventRow dec block event seq next]) (next + 1) rest

theorem numberEvents_map_event (dec : Decoders) (block : AcceptedBlockBatch)
    (rows : List EventRow) (next : Nat) (events : List NewEvent) :
    (numberEvents dec block rows next events).map (·.1) = events := by
  induction events generalizing rows next with
  | nil => rfl
  | cons event rest ih => simp [numberEvents, ih]

theorem numberEvents_map_next (dec : Decoders) (block : AcceptedBlockBatch)
    (rows : List EventRow) (next : Nat) (events : List NewEvent) :
    (numberEvents dec block rows next events).map (·.2.2) =
      List.range' next events.length := by
  induction events generalizing rows next with
  | nil => rfl
  | cons event rest ih => simp [numberEvents, ih, List.range'_succ]

/-- The rows a numbered event is inserted as. -/
def numberedRow (dec : Decoders) (block : AcceptedBlockBatch) (e : NewEvent × Int × Nat) :
    EventRow :=
  eventRow dec block e.1 e.2.1 e.2.2

/-- The record a numbered event is delivered as. -/
def numberedRecord (block : AcceptedBlockBatch) (epoch : StreamEpoch)
    (e : NewEvent × Int × Nat) : DeliveryRecord :=
  acceptedRecord block epoch e.1 e.2.1 e.2.2

/-- The covenant table after one event. -/
def recordEvent (block : AcceptedBlockBatch) (rows : List CovenantRow) (event : NewEvent) :
    List CovenantRow :=
  bumpCovenant event.covenantId block.acceptingDaa
    (insertCovenant (firstCovenantRow block event) rows)

/-- One event inserted: `applyEvent` when it returns. -/
def applyEventEffect (dec : Decoders) (block : AcceptedBlockBatch) (acc : Store × Nat)
    (event : NewEvent) : Store × Nat :=
  let e := (event, nextEventSeq acc.1.covenantEvents event.covenantId, acc.2)
  (enqueue
    (Store.appendDelivery
      { acc.1 with
        covenants := recordEvent block acc.1.covenants event
        covenantEvents := acc.1.covenantEvents ++ [numberedRow dec block e] }
      (numberedRecord block acc.1.streamEpoch e))
    acc.2 [event.covenantId], acc.2 + 1)

theorem applyEvent_ok {dec : Decoders} {block : AcceptedBlockBatch} {acc acc' : Store × Nat}
    {event : NewEvent} (h : applyEvent dec block acc event = .ok acc') :
    acc' = applyEventEffect dec block acc event := by
  obtain ⟨s, next⟩ := acc
  simp only [applyEvent] at h
  obtain ⟨s₁, h₁, h⟩ := bind_eq_ok.mp h
  obtain ⟨n, hn, h⟩ := bind_eq_ok.mp h
  rw [pure_eq_ok] at h
  rw [← h, insertDelivery_ok h₁, checkedNextStreamSeq_ok hn]
  rfl

/-- The projection queue after a run of enqueued records. -/
def enqueueAll (rows : List ProjectionWorkRow) (work : List (Nat × CovenantId)) :
    List ProjectionWorkRow :=
  work.foldl (fun rows w ↦ rows.filter (·.deliveryStreamSeq ≠ w.1) ++
    [{ deliveryStreamSeq := w.1, covenantIds := [w.2] }]) rows

/-- The store after the event loop. -/
def eventsStore (dec : Decoders) (block : AcceptedBlockBatch) (s : Store) (next : Nat)
    (events : List NewEvent) : Store :=
  let es := numberEvents dec block s.covenantEvents next events
  { s with
    covenants := events.foldl (recordEvent block) s.covenants
    covenantEvents := s.covenantEvents ++ es.map (numberedRow dec block)
    deliveryLog := s.deliveryLog ++ es.map (numberedRecord block s.streamEpoch)
    deliveryApplications := s.deliveryApplications ++ es.flatMap fun e ↦
      (numberedRecord block s.streamEpoch e).applications.map (applicationRow e.2.2)
    optionalProjectionWork := enqueueAll s.optionalProjectionWork
      (es.map fun e ↦ (e.2.2, e.1.covenantId)) }

theorem foldl_applyEventEffect (dec : Decoders) (block : AcceptedBlockBatch)
    (events : List NewEvent) (s : Store) (next : Nat) :
    events.foldl (applyEventEffect dec block) (s, next) =
      (eventsStore dec block s next events, next + events.length) := by
  induction events generalizing s next with
  | nil => simp [eventsStore, numberEvents, enqueueAll]
  | cons event rest ih =>
      rw [List.foldl_cons, applyEventEffect, ih]
      refine Prod.ext ?_ (by simp; omega)
      simp [eventsStore, numberEvents, enqueueAll, enqueue, Store.appendDelivery, numberedRow,
        numberedRecord, acceptedRecord]

/-! ## Application rows of a block -/

/-- The envelopes a batch inserts. -/
def newEnvelopes (block : AcceptedBlockBatch) : List EnvelopeRow :=
  block.transactions.filterMap (envelopeRow block)

/-- The application outputs a batch inserts. -/
def newApplicationOutputs (block : AcceptedBlockBatch) : List ApplicationOutputRow :=
  block.transactions.flatMap fun accepted ↦
    accepted.application.outputs.map (applicationOutputRow block accepted.txid)

/-- The failures of a batch with their transactions. -/
def newFailures (transactions : List AcceptedTransaction) : List (TxId × DecodeFailure) :=
  transactions.flatMap fun accepted ↦ accepted.application.failures.map (accepted.txid, ·)

/-- The failure rows a batch inserts, numbered on from `last`. -/
def newFailureRows (block : AcceptedBlockBatch) (last : Nat)
    (failures : List (TxId × DecodeFailure)) : List DecodeFailureRow :=
  (failures.zipIdx (last + 1)).map fun f ↦ decodeFailureRow block f.1.1 f.1.2 f.2

theorem foldl_insertDecodeFailure (block : AcceptedBlockBatch) (txid : TxId)
    (failures : List DecodeFailure) (rows : List DecodeFailureRow) (last : Nat) :
    failures.foldl (insertDecodeFailure block txid) (rows, last) =
      (rows ++ newFailureRows block last (failures.map (txid, ·)), last + failures.length) := by
  induction failures generalizing rows last with
  | nil => simp [newFailureRows]
  | cons failure rest ih =>
      rw [List.foldl_cons, insertDecodeFailure, ih]
      simp [newFailureRows, List.zipIdx_cons]
      omega

theorem newFailureRows_append (block : AcceptedBlockBatch) (last : Nat)
    (xs ys : List (TxId × DecodeFailure)) :
    newFailureRows block last (xs ++ ys) =
      newFailureRows block last xs ++ newFailureRows block (last + xs.length) ys := by
  have hlen : last + 1 + xs.length = last + xs.length + 1 := by omega
  simp [newFailureRows, List.zipIdx_append, hlen]

/-- The store after the transaction loop of `apply_accepted`. -/
def transactionsStore (block : AcceptedBlockBatch) (s : Store)
    (transactions : List AcceptedTransaction) : Store :=
  { s with
    applicationEnvelopes :=
      s.applicationEnvelopes ++ transactions.filterMap (envelopeRow block)
    applicationOutputs := s.applicationOutputs ++ transactions.flatMap fun accepted ↦
      accepted.application.outputs.map (applicationOutputRow block accepted.txid)
    applicationDecodeFailures := s.applicationDecodeFailures ++
      newFailureRows block s.lastDecodeFailureId (newFailures transactions)
    lastDecodeFailureId := s.lastDecodeFailureId + (newFailures transactions).length }

theorem insertEnvelope_ok {block : AcceptedBlockBatch} {accepted : AcceptedTransaction}
    {rows rows' : List EnvelopeRow} (h : insertEnvelope block accepted rows = .ok rows') :
    rows' = rows ++ (envelopeRow block accepted).toList := by
  unfold insertEnvelope at h
  cases henv : envelopeRow block accepted with
  | none =>
      simp only [henv] at h
      simp [(Except.ok.inj h).symm]
  | some row =>
      simp only [henv] at h
      split at h
      · cases h
      · simp [(Except.ok.inj h).symm]

theorem insertApplicationOutput_ok {block : AcceptedBlockBatch} {txid : TxId}
    {rows rows' : List ApplicationOutputRow} {output : ApplicationOutput}
    (h : insertApplicationOutput block txid rows output = .ok rows') :
    rows' = rows ++ [applicationOutputRow block txid output] := by
  unfold insertApplicationOutput at h
  split at h
  · cases h
  · exact (Except.ok.inj h).symm

theorem applyAcceptedTransaction_ok {block : AcceptedBlockBatch} {s s' : Store}
    {accepted : AcceptedTransaction}
    (h : applyAcceptedTransaction block s accepted = .ok s') :
    s' = transactionsStore block s [accepted] := by
  unfold applyAcceptedTransaction at h
  obtain ⟨envelopes, h₁, h⟩ := bind_eq_ok.mp h
  obtain ⟨outputs, h₂, h⟩ := bind_eq_ok.mp h
  rw [pure_eq_ok] at h
  have hout := foldlM_eq_foldl (fun _ _ _ ↦ insertApplicationOutput_ok) h₂
  rw [Rows.foldl_append_map] at hout
  rw [← h, insertEnvelope_ok h₁, hout, foldl_insertDecodeFailure]
  simp [transactionsStore, newFailures, List.filterMap_cons]
  cases envelopeRow block accepted <;> simp

theorem foldl_transactionsStore (block : AcceptedBlockBatch)
    (transactions : List AcceptedTransaction) (s : Store) :
    transactions.foldl (fun s accepted ↦ transactionsStore block s [accepted]) s =
      transactionsStore block s transactions := by
  induction transactions generalizing s with
  | nil => simp [transactionsStore, newFailures, newFailureRows]
  | cons accepted rest ih =>
      rw [List.foldl_cons, ih]
      have hsplit : newFailures (accepted :: rest) =
          newFailures [accepted] ++ newFailures rest := by simp [newFailures]
      simp only [transactionsStore, hsplit, newFailureRows_append, List.length_append]
      simp [List.filterMap_cons, Nat.add_assoc]
      cases envelopeRow block accepted <;> simp

theorem applyAccepted_ok {s s' : Store} {block : AcceptedBlockBatch}
    (h : applyAccepted s block = .ok s') :
    s' = { transactionsStore block s block.transactions with
      applicationOutputs := block.spentUtxos.foldl
        (spendApplicationOutput block.acceptingBlock)
        (s.applicationOutputs ++ newApplicationOutputs block) } := by
  unfold applyAccepted at h
  obtain ⟨s₁, h₁, h⟩ := bind_eq_ok.mp h
  have hfold := foldlM_eq_foldl (fun _ _ _ ↦ applyAcceptedTransaction_ok) h₁
  rw [foldl_transactionsStore] at hfold
  rw [pure_eq_ok] at h
  rw [← h, hfold]
  rfl

/-! ## An applied block -/

/-- The canonical batch row of an applied block that carries a DAA. -/
def canonicalBatchRow (block : AcceptedBlockBatch) (next : Nat) : CanonicalBatchRow :=
  { acceptingBlock := block.acceptingBlock
    acceptingDaa := block.acceptingDaa
    firstStreamSeq := if block.events = [] then none else some next
    lastStreamSeq := if block.events = [] then none else some (next + block.events.length - 1) }

/-- The store an apply of a block that is not canonical commits. -/
def appliedStore (dec : Decoders) (s : Store) (block : AcceptedBlockBatch) : Store :=
  let es := numberEvents dec block s.covenantEvents s.nextStreamSeq block.events
  { s with
    covenants := block.events.foldl (recordEvent block) s.covenants
    covenantEvents := s.covenantEvents ++ es.map (numberedRow dec block)
    covenantUtxos := applyCells dec block s.covenantUtxos
    applicationEnvelopes := s.applicationEnvelopes ++ newEnvelopes block
    applicationOutputs := block.spentUtxos.foldl
      (spendApplicationOutput block.acceptingBlock)
      (s.applicationOutputs ++ newApplicationOutputs block)
    applicationDecodeFailures := s.applicationDecodeFailures ++
      newFailureRows block s.lastDecodeFailureId (newFailures block.transactions)
    lastDecodeFailureId := s.lastDecodeFailureId + (newFailures block.transactions).length
    deliveryLog := s.deliveryLog ++ es.map (numberedRecord block s.streamEpoch)
    deliveryApplications := s.deliveryApplications ++ es.flatMap fun e ↦
      (numberedRecord block s.streamEpoch e).applications.map (applicationRow e.2.2)
    canonicalBatches := if 0 < block.acceptingDaa then
        s.canonicalBatches ++ [canonicalBatchRow block s.nextStreamSeq]
      else
        s.canonicalBatches
    optionalProjectionWork := enqueueAll s.optionalProjectionWork
      (es.map fun e ↦ (e.2.2, e.1.covenantId))
    cursor := some block.acceptingBlock
    processedDaa := if 0 < block.acceptingDaa then some block.acceptingDaa else s.processedDaa
    nextStreamSeq := if 0 < block.acceptingDaa then s.nextStreamSeq + block.events.length
      else s.nextStreamSeq }

theorem applyNewBlock_ok {dec : Decoders} {s s' : Store} {block : AcceptedBlockBatch}
    (h : applyNewBlock dec s block = .ok s') : s' = appliedStore dec s block := by
  unfold applyNewBlock at h
  obtain ⟨⟨s₁, next⟩, h₁, h⟩ := bind_eq_ok.mp h
  obtain ⟨s₂, h₂, h⟩ := bind_eq_ok.mp h
  have hfold := foldlM_eq_foldl (fun _ _ _ ↦ applyEvent_ok) h₁
  rw [foldl_applyEventEffect, Prod.mk.injEq] at hfold
  obtain ⟨hs₁, hnext⟩ := hfold
  rw [pure_eq_ok] at h
  rw [← h, applyAccepted_ok h₂, hs₁, hnext]
  cases hevents : block.events with
  | nil =>
      by_cases hdaa : 0 < block.acceptingDaa
      all_goals simp [finishApply, finishCanonicalBatch, transactionsStore, eventsStore,
        appliedStore, canonicalBatchRow, newEnvelopes, newFailures, hevents, hdaa]
  | cons event rest =>
      by_cases hdaa : 0 < block.acceptingDaa
      all_goals simp [finishApply, finishCanonicalBatch, transactionsStore, eventsStore,
        appliedStore, canonicalBatchRow, newEnvelopes, newFailures, hevents, hdaa]

theorem canonicalBatchDaa_eq_none {s : Store} {block : BlockHash} :
    s.canonicalBatchDaa block = none ↔ s.isCanonical block = false := by
  simp [Store.canonicalBatchDaa, Store.isCanonical]

/-- **Apply, inverted.**  An apply that returned either met a canonical block and
changed nothing, or was not refused and committed `appliedStore`. -/
theorem applyAcceptedBlock_ok {dec : Decoders} {s s' : Store} {block : AcceptedBlockBatch}
    {c : CommittedBatch} (h : applyAcceptedBlock dec s block = .ok (s', c)) :
    c.deliveries = s'.canonicalDeliveriesForBlock block.acceptingBlock ∧
    (block.acceptingDaa = 0 → block.events = []) ∧
    (s.isCanonical block.acceptingBlock = true ∧ s' = s ∨
      s.isCanonical block.acceptingBlock = false ∧ s' = appliedStore dec s block) := by
  unfold applyAcceptedBlock at h
  split at h
  · cases h
  · rename_i hdaa
    have hevents : block.acceptingDaa = 0 → block.events = [] := by
      intro h0
      by_contra hne
      exact hdaa ⟨h0, hne⟩
    cases hc : s.canonicalBatchDaa block.acceptingBlock with
    | some daa =>
        simp only [hc, Except.ok.injEq, Prod.mk.injEq] at h
        obtain ⟨rfl, rfl⟩ := h
        refine ⟨rfl, hevents, .inl ⟨?_, rfl⟩⟩
        by_contra hn
        rw [Bool.not_eq_true, ← canonicalBatchDaa_eq_none, hc] at hn
        cases hn
    | none =>
        simp only [hc] at h
        obtain ⟨s₁, h₁, h⟩ := bind_eq_ok.mp h
        rw [pure_eq_ok, Prod.mk.injEq] at h
        obtain ⟨rfl, rfl⟩ := h
        exact ⟨rfl, hevents,
          .inr ⟨canonicalBatchDaa_eq_none.mp hc, applyNewBlock_ok h₁⟩⟩

end Kascov
