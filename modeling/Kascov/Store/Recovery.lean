import Kascov.Store.Blocks

/-!
# Merging recovered history

`Store::merge_recovered_block` and `Store::finalize_gap_recovery`: the first
merges a block of a skipped window behind the events already indexed, the second
renumbers the covenants of the window and refreshes their summary rows.

`finalize_gap_recovery` also re-derives the token tables of the covenants it
touched.  These are projections of the tables modelled here and live apart from
the store; what they hold is the subject of the token files.
-/

namespace Kascov

/-! ## Merge -/

/-- Tallies of `merge_recovered_block`. -/
structure MergeCounts where
  eventsAdded : Nat := 0
  utxosAdded : Nat := 0
  spendsRepaired : Nat := 0
deriving DecidableEq, Repr

/-- `MergeCounts::add`. -/
def MergeCounts.add (a b : MergeCounts) : MergeCounts :=
  { eventsAdded := a.eventsAdded + b.eventsAdded
    utxosAdded := a.utxosAdded + b.utxosAdded
    spendsRepaired := a.spendsRepaired + b.spendsRepaired }

/-- `INSERT OR IGNORE INTO covenant_utxos`: an existing row may carry a spend the
recovered view lacks. -/
def mergeCreated (dec : Decoders) (block : AcceptedBlockBatch)
    (acc : List UtxoRow × MergeCounts) (utxo : NewUtxo) : List UtxoRow × MergeCounts :=
  if acc.1.any (·.outpoint = utxo.outpoint) then
    acc
  else
    (acc.1 ++ [createdRow dec block utxo],
      { acc.2 with utxosAdded := acc.2.utxosAdded + 1 })

/-- The spend loop of a merge: only a row still unspent is repaired. -/
def mergeSpent (dec : Decoders) (block : AcceptedBlockBatch)
    (acc : List UtxoRow × MergeCounts) (spent : SpentUtxo) : List UtxoRow × MergeCounts :=
  (acc.1.map fun row =>
    if row.outpoint = spent.outpoint ∧ row.spentBlock = none then
      spendRow dec block spent row
    else
      row,
    { acc.2 with
      spendsRepaired := acc.2.spendsRepaired + acc.1.countP fun row =>
        row.outpoint = spent.outpoint ∧ row.spentBlock = none })

/-- The bare covenant row of an id born in the gap. -/
def bareCovenantRow (id : CovenantId) : CovenantRow :=
  { covenantId := id
    genesisTxid := none
    genesisDaa := none
    lineageComplete := false
    eventCount := 0
    lastActivityDaa := 0 }

/-- The row a recovered event is inserted as: an event row without a delivery
sequence and without an event index. -/
def recoveredRow (dec : Decoders) (block : AcceptedBlockBatch) (event : NewEvent)
    (seq : Int) : EventRow :=
  { eventRow dec block event seq 0 with
    eventIndex := none
    deliveryStreamSeq := none }

/-- `SELECT EXISTS` of an event of the covenant and transaction. -/
def recorded (rows : List EventRow) (event : NewEvent) : Bool :=
  rows.any fun row => row.covenantId = event.covenantId ∧ row.txid = event.txid

/-- The event loop of a merge: an event of the same covenant and transaction is
the same historic event. -/
def mergeEvent (dec : Decoders) (block : AcceptedBlockBatch) (acc : Store × MergeCounts)
    (event : NewEvent) : Store × MergeCounts :=
  if recorded acc.1.covenantEvents event then
    acc
  else
    ({ acc.1 with
        covenants := insertCovenant (bareCovenantRow event.covenantId) acc.1.covenants
        covenantEvents := acc.1.covenantEvents ++
          [recoveredRow dec block event
            (nextEventSeq acc.1.covenantEvents event.covenantId)] },
      { acc.2 with eventsAdded := acc.2.eventsAdded + 1 })

/-- `Store::merge_recovered_block`. -/
def mergeRecoveredBlock (dec : Decoders) (s : Store) (block : AcceptedBlockBatch) :
    Store × MergeCounts :=
  let created := block.createdUtxos.foldl (mergeCreated dec block) (s.covenantUtxos, {})
  let spent := block.spentUtxos.foldl (mergeSpent dec block) created
  block.events.foldl (mergeEvent dec block) ({ s with covenantUtxos := spent.1 }, spent.2)

/-! ## Finalize -/

/-- `SELECT DISTINCT covenant_id … WHERE accepting_daa BETWEEN ?1 AND ?2`. -/
def coveredCovenants (s : Store) (gapLo gapHi : Nat) : List CovenantId :=
  ((s.covenantEvents.filter fun row =>
    gapLo ≤ row.acceptingDaa ∧ row.acceptingDaa ≤ gapHi).map (·.covenantId)).dedup

/-- `ORDER BY accepting_daa, seq`. -/
def chronoLe (a b : EventRow) : Prop :=
  a.acceptingDaa < b.acceptingDaa ∨ a.acceptingDaa = b.acceptingDaa ∧ a.seq ≤ b.seq

instance : DecidableRel chronoLe := fun a b =>
  inferInstanceAs (Decidable (a.acceptingDaa < b.acceptingDaa ∨
    a.acceptingDaa = b.acceptingDaa ∧ a.seq ≤ b.seq))

/-- The sequences of a covenant's events in chronological order. -/
def chronologicalSeqs (rows : List EventRow) (id : CovenantId) : List Int :=
  ((rows.filter (·.covenantId = id)).insertionSort chronoLe).map (·.seq)

/-- `old_seq == new_seq` for every event. -/
def inSequence (ordered : List Int) : Bool :=
  ordered.zipIdx.all fun p => p.1 = (p.2 : Int)

/-- `UPDATE covenant_events SET seq = -(new + 1) WHERE covenant_id = ? AND seq =
old`. -/
def parkSeq (id : CovenantId) (rows : List EventRow) (p : Int × Nat) : List EventRow :=
  rows.map fun row =>
    if row.covenantId = id ∧ row.seq = p.1 then { row with seq := -(p.2 : Int) - 1 } else row

/-- `UPDATE covenant_events SET seq = -seq - 1 WHERE covenant_id = ? AND seq < 0`. -/
def unparkSeqs (id : CovenantId) (rows : List EventRow) : List EventRow :=
  rows.map fun row =>
    if row.covenantId = id ∧ row.seq < 0 then { row with seq := -row.seq - 1 } else row

/-- The renumbering of one covenant: every row is parked at a negative sequence
first, so that no step meets the primary key of a row not moved yet. -/
def resequence (id : CovenantId) (rows : List EventRow) : List EventRow :=
  let ordered := chronologicalSeqs rows id
  if inSequence ordered then
    rows
  else
    unparkSeqs id (ordered.zipIdx.foldl (parkSeq id) rows)

/-- `COALESCE(MAX(accepting_daa), 0)` over the events of a covenant. -/
def lastActivityOf (rows : List EventRow) (id : CovenantId) : Nat :=
  (rows.filter (·.covenantId = id)).foldl (fun m row => max m row.acceptingDaa) 0

/-- The covenant's event of sequence zero. -/
def firstEvent (rows : List EventRow) (id : CovenantId) : Option EventRow :=
  rows.find? fun row => row.covenantId = id ∧ row.seq = 0

/-- A covenant row refreshed from its events. -/
def refreshRow (events : List EventRow) (row : CovenantRow) : CovenantRow :=
  let row := { row with
    eventCount := events.countP fun event : EventRow => event.covenantId = row.covenantId
    lastActivityDaa := lastActivityOf events row.covenantId }
  match firstEvent events row.covenantId with
  | some first =>
      if first.kind = .genesis then
        { row with
          genesisTxid := some first.txid
          genesisDaa := some first.acceptingDaa
          lineageComplete := true }
      else
        { row with genesisTxid := none, genesisDaa := none, lineageComplete := false }
  | none => { row with genesisTxid := none, genesisDaa := none, lineageComplete := false }

/-- One covenant of the refresh loop. -/
def refreshCovenant (s : Store) (id : CovenantId) : Store :=
  let events := resequence id s.covenantEvents
  { s with
    covenantEvents := events
    covenants := s.covenants.map fun row =>
      if row.covenantId = id then refreshRow events row else row }

/-- `Store::finalize_gap_recovery`, less the token tables. -/
def finalizeGapRecovery (s : Store) (gapLo gapHi : Nat) (merged : MergeCounts) : Store :=
  let refresh := coveredCovenants s gapLo gapHi
  let s := refresh.foldl refreshCovenant s
  { s with
    gapRecoveries := s.gapRecoveries ++
      [{ fromDaa := gapLo
         toDaa := gapHi
         eventsAdded := merged.eventsAdded
         utxosAdded := merged.utxosAdded
         spendsRepaired := merged.spendsRepaired
         covenantsRefreshed := refresh.length }]
    gapRecoveryPending := none
    gapWalkCursor := none }

end Kascov
