import Kascov.Store.Delivery

/-!
# The application tables

`store_application.rs`: what an accepted block writes to the envelope, output
and failure tables, how a rollback undoes it, and the repair of failed
decodings, which is the fourth writer of the delivery log.
-/

namespace Kascov

/-- The status an envelope gets from its decoding. -/
def envelopeStatus (application : ApplicationPreprocess) : EnvelopeStatus :=
  if application.failures = [] then
    .valid
  else if application.outputs = [] then
    .failed
  else
    .partly

/-! ## Apply -/

/-- The envelope row of a transaction, when its decoding found one. -/
def envelopeRow (batch : AcceptedBlockBatch) (accepted : AcceptedTransaction) :
    Option EnvelopeRow :=
  accepted.application.rawEnvelope.map fun rawEnvelope =>
    { txid := accepted.txid
      acceptingBlock := batch.acceptingBlock
      acceptingDaa := batch.acceptingDaa
      rawEnvelope
      applicationPayload := accepted.application.applicationPayload.getD []
      transactionJson := some accepted.transaction
      status := envelopeStatus accepted.application }

/-- The envelope insert of `apply_accepted`. -/
def insertEnvelope (batch : AcceptedBlockBatch) (accepted : AcceptedTransaction)
    (rows : List EnvelopeRow) : Result (List EnvelopeRow) :=
  match envelopeRow batch accepted with
  | none => .ok rows
  | some row =>
      if rows.any (·.txid = accepted.txid) then
        .error (uniqueViolation "application_envelopes.txid")
      else
        .ok (rows ++ [row])

/-- The row a decoded output is inserted as. -/
def applicationOutputRow (batch : AcceptedBlockBatch) (txid : TxId)
    (output : ApplicationOutput) : ApplicationOutputRow :=
  { txid
    output
    createdBlock := batch.acceptingBlock
    createdDaa := batch.acceptingDaa
    spentBlock := none }

/-- One row of the output loop of `apply_accepted`. -/
def insertApplicationOutput (batch : AcceptedBlockBatch) (txid : TxId)
    (rows : List ApplicationOutputRow) (output : ApplicationOutput) :
    Result (List ApplicationOutputRow) :=
  if rows.any (·.outpoint = ⟨txid, output.outputIndex⟩) then
    .error (uniqueViolation "application_outputs.txid, application_outputs.output_index")
  else
    .ok (rows ++ [applicationOutputRow batch txid output])

/-- The row a decode failure is inserted as. -/
def decodeFailureRow (batch : AcceptedBlockBatch) (txid : TxId) (failure : DecodeFailure)
    (id : Nat) : DecodeFailureRow :=
  { id
    txid
    acceptingBlock := batch.acceptingBlock
    acceptingDaa := batch.acceptingDaa
    failure
    repairedStreamSeq := none }

/-- One row of the failure loop of `apply_accepted`. -/
def insertDecodeFailure (batch : AcceptedBlockBatch) (txid : TxId)
    (acc : List DecodeFailureRow × Nat) (failure : DecodeFailure) :
    List DecodeFailureRow × Nat :=
  (acc.1 ++ [decodeFailureRow batch txid failure (acc.2 + 1)], acc.2 + 1)

/-- One transaction of `apply_accepted`. -/
def applyAcceptedTransaction (batch : AcceptedBlockBatch) (s : Store)
    (accepted : AcceptedTransaction) : Result Store := do
  let envelopes ← insertEnvelope batch accepted s.applicationEnvelopes
  let outputs ← accepted.application.outputs.foldlM
    (insertApplicationOutput batch accepted.txid) s.applicationOutputs
  let failures := accepted.application.failures.foldl
    (insertDecodeFailure batch accepted.txid)
    (s.applicationDecodeFailures, s.lastDecodeFailureId)
  return { s with
    applicationEnvelopes := envelopes
    applicationOutputs := outputs
    applicationDecodeFailures := failures.1
    lastDecodeFailureId := failures.2 }

/-- `UPDATE application_outputs SET spent_block = ?1 WHERE txid = ?2 AND
output_index = ?3 AND spent_block IS NULL`. -/
def spendApplicationOutput (block : BlockHash) (rows : List ApplicationOutputRow)
    (spent : SpentUtxo) : List ApplicationOutputRow :=
  rows.map fun row =>
    if row.outpoint = spent.outpoint ∧ row.spentBlock = none then
      { row with spentBlock := some block }
    else
      row

/-- `apply_accepted`. -/
def applyAccepted (s : Store) (batch : AcceptedBlockBatch) : Result Store := do
  let s ← batch.transactions.foldlM (applyAcceptedTransaction batch) s
  return { s with
    applicationOutputs :=
      batch.spentUtxos.foldl (spendApplicationOutput batch.acceptingBlock)
        s.applicationOutputs }

/-! ## Rollback -/

/-- `UPDATE application_outputs SET spent_block = NULL WHERE spent_block = ?`. -/
def unspendApplicationOutputs (hash : BlockHash) (rows : List ApplicationOutputRow) :
    List ApplicationOutputRow :=
  rows.map fun row =>
    if row.spentBlock = some hash then { row with spentBlock := none } else row

/-- One block of `rollback_removed`. -/
def rollbackRemovedBlock (s : Store) (hash : BlockHash) : Store :=
  { s with
    applicationOutputs :=
      (unspendApplicationOutputs hash s.applicationOutputs).filter (·.createdBlock ≠ hash)
    applicationDecodeFailures :=
      s.applicationDecodeFailures.filter (·.acceptingBlock ≠ hash)
    applicationEnvelopes := s.applicationEnvelopes.filter (·.acceptingBlock ≠ hash) }

/-- `rollback_removed`. -/
def rollbackRemoved (s : Store) (removed : List BlockHash) : Store :=
  removed.foldl rollbackRemovedBlock s

/-! ## Repair -/

structure ApplicationRepairResult where
  transactionsScanned : Nat := 0
  outputsRepaired : Nat := 0
  failuresRepaired : Nat := 0
  deliveriesAppended : Nat := 0
  failuresRemaining : Nat := 0
deriving DecidableEq, Repr

/-- `failure.repaired_stream_seq IS NULL`. -/
def DecodeFailureRow.unrepaired (row : DecodeFailureRow) : Bool :=
  row.repairedStreamSeq.isNone

/-- The candidate query of `repair_application_failures`: envelopes that keep
their transaction and still have an unrepaired failure. -/
def repairCandidates (s : Store) (limit : Nat) : List (TxId × Transaction) :=
  (((s.applicationEnvelopes.filter fun envelope =>
      s.applicationDecodeFailures.any fun failure =>
        failure.txid = envelope.txid && failure.unrepaired).insertionSort
      fun a b => [(a.acceptingDaa : Nat), a.txid.bytes.toNat] ≤
        [b.acceptingDaa, b.txid.bytes.toNat]).filterMap fun envelope =>
      envelope.transactionJson.map fun transaction => (envelope.txid, transaction)).take
    (clamp limit 1 10000)

/-- The decoding half of `repair_application_failures`, before its write. -/
def decodeCandidate (decoder : ApplicationDecoder) (candidate : TxId × Transaction) :
    Result (Transaction × ApplicationPreprocess) :=
  if candidate.2.txid ≠ candidate.1 then
    .error (.invalid "stored application transaction ID"
      (toString candidate.2.txid.bytes.toHex))
  else
    .ok (candidate.2, decoder candidate.2)

/-- The event a repaired output is reported under: the newest of its covenant in
its transaction. -/
def repairEvent (s : Store) (txid : TxId) (id : CovenantId) : Option EventRow :=
  (s.covenantEvents.filter fun row => row.txid = txid ∧ row.covenantId = id).foldl
    (fun best row => match best with
      | none => some row
      | some b => if b.seq < row.seq then some row else some b) none

/-- The stored cell a repaired output must agree with, and the event it is
reported under; `none` is one of the `continue`s before the insert. -/
def repairTarget (s : Store) (transaction : Transaction) (output : ApplicationOutput) :
    Option (UtxoRow × EventRow) := do
  let accepted ← transaction.outputs[output.outputIndex]?
  let binding ← accepted.covenant
  if binding.covenantId ≠ output.covenantId then none
  let stored ← s.covenantUtxos.find? (·.outpoint = ⟨transaction.txid, output.outputIndex⟩)
  if stored.covenantId ≠ output.covenantId ∨ stored.value ≠ accepted.value ∨
      stored.spkVersion ≠ accepted.spkVersion ∨ stored.spkScript ≠ accepted.spkScript then
    none
  let event ← repairEvent s transaction.txid output.covenantId
  return (stored, event)

/-- The row a repaired output is inserted as: it inherits the creation and the
spend of its cell. -/
def repairedRow (txid : TxId) (output : ApplicationOutput) (stored : UtxoRow) :
    ApplicationOutputRow :=
  { txid
    output
    createdBlock := stored.createdBlock
    createdDaa := stored.createdDaa
    spentBlock := stored.spentBlock }

/-- The `projection_repaired` record of one repaired output. -/
def repairRecord (epoch : StreamEpoch) (next : Nat) (txid : TxId)
    (output : ApplicationOutput) (event : EventRow) : DeliveryRecord :=
  { cursor := ⟨epoch, next⟩
    kind := .projectionRepaired
    sourceCursor := event.deliveryStreamSeq.map fun seq => ⟨epoch, seq⟩
    covenantId := output.covenantId
    covenantEventSeq := event.seq
    txid
    acceptingBlock := event.acceptingBlock
    acceptingDaa := event.acceptingDaa
    txIndex := event.txIndex
    eventIndex := event.eventIndex
    orderComplete := event.txIndex.isSome && event.eventIndex.isSome
    pendingId := event.eventIndex.map fun ordinal => ⟨txid, output.covenantId, ordinal⟩
    applications := [output] }

/-- `UPDATE application_decode_failures SET repaired_stream_seq = ?` over the
unrepaired failures that `select` picks. -/
def markRepaired (seq : Nat) (select : DecodeFailureRow → Bool)
    (rows : List DecodeFailureRow) : List DecodeFailureRow :=
  rows.map fun row =>
    if select row && row.unrepaired then
      { row with repairedStreamSeq := some seq }
    else
      row

/-- The accumulator of the repair loops: the store, the next sequence, the
sequences of the current transaction, and the tally. -/
structure RepairState where
  store : Store
  next : Nat
  repairedSequences : List Nat := []
  result : ApplicationRepairResult := {}
deriving DecidableEq, Repr

/-- One output of the repair loop. -/
def repairOutput (transaction : Transaction) (r : RepairState)
    (output : ApplicationOutput) : Result RepairState :=
  match repairTarget r.store transaction output with
  | none => .ok r
  | some (stored, event) =>
      -- `INSERT OR IGNORE`: an output already projected is left alone.
      if r.store.applicationOutputs.any
          (·.outpoint = ⟨transaction.txid, output.outputIndex⟩) then
        .ok r
      else do
        let s := { r.store with
          applicationOutputs :=
            r.store.applicationOutputs ++ [repairedRow transaction.txid output stored] }
        let s ← insertDelivery s
          (repairRecord s.streamEpoch r.next transaction.txid output event)
        let s := enqueue s r.next [output.covenantId]
        let select : DecodeFailureRow → Bool := fun row =>
          row.txid = transaction.txid && row.failure.outputIndex = some output.outputIndex
        let repaired := s.applicationDecodeFailures.countP fun row =>
          select row && row.unrepaired
        let s := { s with
          applicationDecodeFailures :=
            markRepaired r.next select s.applicationDecodeFailures }
        let next ← checkedNextStreamSeq r.next
        return { store := s
                 next
                 repairedSequences := r.repairedSequences ++ [r.next]
                 result := { r.result with
                   failuresRepaired := r.result.failuresRepaired + repaired
                   outputsRepaired := r.result.outputsRepaired + 1
                   deliveriesAppended := r.result.deliveriesAppended + 1 } }

/-- The close of one transaction's repair: a decoding without failures clears
the failures left over, and the envelope gets its new status. -/
def finishRepair (transaction : Transaction) (application : ApplicationPreprocess)
    (r : RepairState) : RepairState :=
  let select : DecodeFailureRow → Bool := fun row => row.txid = transaction.txid
  let r := match application.failures, r.repairedSequences with
    | [], seq :: _ =>
        { r with
          store := { r.store with
            applicationDecodeFailures :=
              markRepaired seq select r.store.applicationDecodeFailures }
          result := { r.result with
            failuresRepaired := r.result.failuresRepaired +
              r.store.applicationDecodeFailures.countP fun row =>
                select row && row.unrepaired } }
    | _, _ => r
  { r with
    store := { r.store with
      applicationEnvelopes := r.store.applicationEnvelopes.map fun envelope =>
        if envelope.txid = transaction.txid then
          { envelope with status := envelopeStatus application }
        else
          envelope } }

/-- One transaction of the repair loop. -/
def repairTransaction (r : RepairState)
    (decoded : Transaction × ApplicationPreprocess) : Result RepairState := do
  let r ← decoded.2.outputs.foldlM (repairOutput decoded.1)
    { r with repairedSequences := [] }
  return finishRepair decoded.1 decoded.2 r

/-- `Store::repair_application_failures`. -/
def repairApplicationFailures (s : Store) (decoder : ApplicationDecoder) (limit : Nat) :
    Result (Store × ApplicationRepairResult) := do
  let decoded ← (repairCandidates s limit).mapM (decodeCandidate decoder)
  let r ← decoded.foldlM repairTransaction
    { store := s
      next := s.nextStreamSeq
      result := { transactionsScanned := decoded.length } }
  let s := { r.store with nextStreamSeq := r.next }
  return (s, { r.result with
    failuresRemaining :=
      s.applicationDecodeFailures.countP (·.unrepaired) })

end Kascov
