import Kascov.Store.Application

/-!
# Applying and rolling back blocks

`Store::apply_accepted_block` and `Store::rollback_removed_blocks`, each one
SQLite transaction: an error leaves the store as it was, so both return the
store they commit.
-/

namespace Kascov

/-! ## Cells -/

/-- The row a created cell is inserted as. -/
def createdRow (dec : Decoders) (block : AcceptedBlockBatch) (utxo : NewUtxo) : UtxoRow :=
  { outpoint := utxo.outpoint
    covenantId := utxo.covenantId
    value := utxo.value
    spkVersion := utxo.spkVersion
    spkScript := utxo.spkScript
    createdBlock := block.acceptingBlock
    createdDaa := block.acceptingDaa
    spentBlock := none
    spentTxid := none
    spentSig := none
    spentBudget := none
    template := (dec.template utxo.spkVersion utxo.spkScript).getD ""
    revealedTemplate := none
    kcc1TemplateHash := none
    spentInputIndex := none }

/-- One pass of the `created_utxos` loop: `INSERT OR REPLACE`. -/
def insertCreated (dec : Decoders) (block : AcceptedBlockBatch) (rows : List UtxoRow)
    (utxo : NewUtxo) : List UtxoRow :=
  rows.filter (·.outpoint ≠ utxo.outpoint) ++ [createdRow dec block utxo]

/-- The spend columns of a cell: who spent it, and what the unlocking script
reveals about the program that ran. -/
def spendRow (dec : Decoders) (block : AcceptedBlockBatch) (spent : SpentUtxo)
    (row : UtxoRow) : UtxoRow :=
  let redeem := dec.p2shReveal row.spkScript spent.sig
  { row with
    spentBlock := some block.acceptingBlock
    spentTxid := some spent.spendingTxid
    spentSig := some spent.sig
    spentBudget := some spent.budget
    revealedTemplate := some ((redeem.bind (dec.revealedTemplate row.spkVersion)).getD "")
    kcc1TemplateHash := some ((redeem.bind dec.kcc1TemplateHash).getD [])
    spentInputIndex := some spent.inputIndex }

/-- One pass of the `spent_utxos` loop.  The outpoint is the primary key, so the
row the `SELECT` reads is the row the `UPDATE` writes; a spend of a cell that
was never indexed matches neither. -/
def markSpent (dec : Decoders) (block : AcceptedBlockBatch) (rows : List UtxoRow)
    (spent : SpentUtxo) : List UtxoRow :=
  rows.map fun row =>
    if row.outpoint = spent.outpoint then spendRow dec block spent row else row

/-- The whole cell phase: created rows land before spends are marked, so that a
chain swept inside one block leaves no live row behind. -/
def applyCells (dec : Decoders) (block : AcceptedBlockBatch) (rows : List UtxoRow) :
    List UtxoRow :=
  block.spentUtxos.foldl (markSpent dec block)
    (block.createdUtxos.foldl (insertCreated dec block) rows)

/-! ## Events -/

/-- `application_outputs_by_tx`, looked up at one transaction: the outputs of
its first occurrence. -/
def applicationOutputsByTx (transactions : List AcceptedTransaction) (txid : TxId) :
    List ApplicationOutput :=
  ((transactions.find? (·.txid = txid)).map (·.application.outputs)).getD []

/-- `INSERT INTO covenants … ON CONFLICT(covenant_id) DO NOTHING`. -/
def insertCovenant (row : CovenantRow) (rows : List CovenantRow) : List CovenantRow :=
  if rows.any (·.covenantId = row.covenantId) then rows else rows ++ [row]

/-- The covenant row an event inserts when its covenant has none. -/
def firstCovenantRow (block : AcceptedBlockBatch) (event : NewEvent) : CovenantRow :=
  { covenantId := event.covenantId
    genesisTxid := if event.kind = .genesis then some event.txid else none
    genesisDaa := if event.kind = .genesis then some block.acceptingDaa else none
    lineageComplete := event.kind = .genesis
    eventCount := 0
    lastActivityDaa := 0 }

/-- `UPDATE covenants SET event_count = event_count + 1, last_activity_daa = ?2
WHERE covenant_id = ?1`. -/
def bumpCovenant (id : CovenantId) (daa : Nat) (rows : List CovenantRow) :
    List CovenantRow :=
  rows.map fun row =>
    if row.covenantId = id then
      { row with eventCount := row.eventCount + 1, lastActivityDaa := daa }
    else
      row

/-- The row an event is inserted as. -/
def eventRow (dec : Decoders) (block : AcceptedBlockBatch) (event : NewEvent) (seq : Int)
    (next : Nat) : EventRow :=
  { covenantId := event.covenantId
    seq
    kind := event.kind
    txid := event.txid
    acceptingBlock := block.acceptingBlock
    acceptingDaa := block.acceptingDaa
    payload := event.payload
    laneNamespace := event.laneNamespace
    payloadTag := event.payload.map dec.payloadTag
    inscriptionKind := event.payload.map dec.inscriptionKindOf
    txIndex := some event.txIndex
    acceptingTimeMs := some block.acceptingTimeMs
    acceptingBlueScore := some block.acceptingBlueScore
    eventIndex := some event.eventIndex
    deliveryStreamSeq := some next }

/-- The accepted record delivered for an event. -/
def acceptedRecord (block : AcceptedBlockBatch) (epoch : StreamEpoch) (event : NewEvent)
    (seq : Int) (next : Nat) : DeliveryRecord :=
  { cursor := ⟨epoch, next⟩
    kind := .accepted
    sourceCursor := none
    covenantId := event.covenantId
    covenantEventSeq := seq
    txid := event.txid
    acceptingBlock := block.acceptingBlock
    acceptingDaa := block.acceptingDaa
    txIndex := some event.txIndex
    eventIndex := some event.eventIndex
    orderComplete := true
    pendingId := some ⟨event.txid, event.covenantId, event.eventIndex⟩
    applications := (applicationOutputsByTx block.transactions event.txid).filter
      (·.covenantId = event.covenantId) }

/-- One pass of the `events` loop: the covenant row, the event row, and the
delivery record that announces it. -/
def applyEvent (dec : Decoders) (block : AcceptedBlockBatch) (acc : Store × Nat)
    (event : NewEvent) : Result (Store × Nat) := do
  let (s, next) := acc
  let seq := nextEventSeq s.covenantEvents event.covenantId
  let s := { s with
    covenants := bumpCovenant event.covenantId block.acceptingDaa
      (insertCovenant (firstCovenantRow block event) s.covenants)
    covenantEvents := s.covenantEvents ++ [eventRow dec block event seq next] }
  let s ← insertDelivery s (acceptedRecord block s.streamEpoch event seq next)
  let s := enqueue s next [event.covenantId]
  return (s, ← checkedNextStreamSeq next)

/-! ## Apply -/

/-- The close of an apply: the cursor, and for a batch that carries a DAA the
progress mark and the canonical batch. -/
def finishApply (s : Store) (block : AcceptedBlockBatch)
    (firstStreamSeq : Option Nat) (next : Nat) : Store :=
  let s := { s with cursor := some block.acceptingBlock }
  if 0 < block.acceptingDaa then
    finishCanonicalBatch { s with processedDaa := some block.acceptingDaa }
      block.acceptingBlock block.acceptingDaa firstStreamSeq
      (if firstStreamSeq.isSome ∧ 0 < next then some (next - 1) else none) next
  else
    s

/-- The write transaction of `apply_accepted_block` for a block that is not
canonical yet. -/
def applyNewBlock (dec : Decoders) (s : Store) (block : AcceptedBlockBatch) :
    Result Store := do
  let firstStreamSeq := if block.events = [] then none else some s.nextStreamSeq
  let (s, next) ← block.events.foldlM (applyEvent dec block)
    ({ s with covenantUtxos := applyCells dec block s.covenantUtxos }, s.nextStreamSeq)
  let s ← applyAccepted s block
  return finishApply s block firstStreamSeq next

/-- `Store::apply_accepted_block`. -/
def applyAcceptedBlock (dec : Decoders) (s : Store) (block : AcceptedBlockBatch) :
    Result (Store × CommittedBatch) :=
  if block.acceptingDaa = 0 ∧ block.events ≠ [] then
    .error (.invalid "accepted block DAA" "zero with delivery events")
  else
    match s.canonicalBatchDaa block.acceptingBlock with
    | some processedDaa =>
        .ok (s, { cursor := block.acceptingBlock
                  processedDaa
                  deliveries := s.canonicalDeliveriesForBlock block.acceptingBlock })
    | none => do
        let s ← applyNewBlock dec s block
        return (s, { cursor := block.acceptingBlock
                     processedDaa := block.acceptingDaa
                     deliveries := s.canonicalDeliveriesForBlock block.acceptingBlock })

/-! ## Rollback -/

/-- The hashes of `removed` at their first occurrence: the `seen` set of the
collecting loop. -/
def firstSeen (seen : List BlockHash) : List BlockHash → List BlockHash
  | [] => []
  | block :: rest =>
      if block ∈ seen then firstSeen seen rest else block :: firstSeen (block :: seen) rest

/-- `canonical_removed`: the distinct removed blocks that have a canonical
batch. -/
def canonicalRemoved (s : Store) (removed : List BlockHash) : List BlockHash :=
  (firstSeen [] removed).filter s.isCanonical

/-- `UPDATE covenant_utxos SET spent_block = NULL, spent_txid = NULL, spent_sig =
NULL, spent_budget = NULL, revealed_template = NULL WHERE spent_block = ?1`. -/
def unspendRow (hash : BlockHash) (row : UtxoRow) : UtxoRow :=
  if row.spentBlock = some hash then
    { row with
      spentBlock := none
      spentTxid := none
      spentSig := none
      spentBudget := none
      revealedTemplate := none }
  else
    row

/-- The cell half of a block's rollback. -/
def rollbackCells (hash : BlockHash) (rows : List UtxoRow) : List UtxoRow :=
  (rows.map (unspendRow hash)).filter (·.createdBlock ≠ hash)

/-- `UPDATE covenants SET event_count = event_count - (SELECT COUNT(*) …)`. -/
def decrementCovenants (hash : BlockHash) (events : List EventRow)
    (rows : List CovenantRow) : List CovenantRow :=
  rows.map fun row =>
    { row with
      eventCount := row.eventCount -
        (events.countP fun event =>
          event.acceptingBlock = hash && event.covenantId = row.covenantId : Nat) }

/-- One pass of the rollback loop. -/
def rollbackBlock (s : Store) (hash : BlockHash) : Store :=
  { s with
    covenantUtxos := rollbackCells hash s.covenantUtxos
    covenants := decrementCovenants hash s.covenantEvents s.covenants
    covenantEvents := s.covenantEvents.filter (·.acceptingBlock ≠ hash)
    canonicalBatches := s.canonicalBatches.filter (·.acceptingBlock ≠ hash) }

/-- `Store::rollback_removed_blocks`. -/
def rollbackRemovedBlocks (s : Store) (removed : List BlockHash) :
    Result (Store × CommittedRemovalBatch) :=
  let hashes := canonicalRemoved s removed
  if hashes = [] then
    .ok (s, { removedBlocks := [], deliveries := [] })
  else do
    let (s, deliveries) ← appendRemovedDeliveries s hashes
    let s := deliveries.foldl (fun s delivery =>
      enqueue s delivery.cursor.seq [delivery.covenantId]) s
    let s := rollbackRemoved s hashes
    let s := hashes.foldl rollbackBlock s
    let s := { s with
      covenants := s.covenants.filter (0 < ·.eventCount)
      reorgLog := s.reorgLog ++
        [{ daa := s.processedDaa.getD 0, rolledBack := hashes.length }] }
    return (s, { removedBlocks := hashes, deliveries })

end Kascov
