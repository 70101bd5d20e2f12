import Kascov.Store.Tables

/-!
# The delivery log

`store_delivery.rs`: the append-only log of delivery records, its application
index, the canonical batches that bound each block's records, and the two
writers of the log that live in that file — the removal writer used by a
rollback, and the backfill of events recorded before the log existed.
-/

namespace Kascov

namespace Store

/-- `canonical_batch_daa`. -/
def canonicalBatchDaa (s : Store) (acceptingBlock : BlockHash) : Option Nat :=
  (s.canonicalBatches.find? (·.acceptingBlock = acceptingBlock)).map (·.acceptingDaa)

/-- `SELECT EXISTS(SELECT 1 FROM canonical_batches WHERE accepting_block = ?)`. -/
def isCanonical (s : Store) (block : BlockHash) : Bool :=
  s.canonicalBatches.any (·.acceptingBlock = block)

/-- Is `r` an accepted record of `block` with its sequence in `[first, last]`?
A `NULL` bound satisfies no `BETWEEN`. -/
def acceptedBetween (block : BlockHash) (first last : Option Nat) (r : DeliveryRecord) :
    Bool :=
  match first, last with
  | some first, some last =>
      first ≤ r.cursor.seq ∧ r.cursor.seq ≤ last ∧ r.acceptingBlock = block ∧
        r.kind = .accepted
  | _, _ => false

/-- The accepted records of a block, in stream order.  The log is kept in
stream order, so the `ORDER BY` of the query is the order of the rows. -/
def acceptedSources (s : Store) (block : BlockHash) : List DeliveryRecord :=
  match s.canonicalBatches.find? (·.acceptingBlock = block) with
  | some row =>
      s.deliveryLog.filter (acceptedBetween block row.firstStreamSeq row.lastStreamSeq)
  | none => []

/-- `canonical_deliveries_for_block`. -/
def canonicalDeliveriesForBlock (s : Store) (block : BlockHash) : List DeliveryRecord :=
  s.acceptedSources block

end Store

/-! ## Appending a record -/

/-- The index row of one application output a record carries. -/
def applicationRow (seq : Nat) (application : ApplicationOutput) : DeliveryApplicationRow :=
  { streamSeq := seq
    outputIndex := application.outputIndex
    applicationId := application.applicationId
    artifactId := application.artifactId
    actorPath := application.actorPath }

/-- One row of the `delivery_applications` loop of `insert_delivery`. -/
def insertDeliveryApplication (seq : Nat) (rows : List DeliveryApplicationRow)
    (application : ApplicationOutput) : Result (List DeliveryApplicationRow) :=
  if rows.any fun row =>
      row.streamSeq = seq ∧ row.outputIndex = application.outputIndex ∧
        row.applicationId = application.applicationId ∧
        row.actorPath = application.actorPath then
    .error (uniqueViolation
      ("delivery_applications.stream_seq, delivery_applications.output_index, " ++
       "delivery_applications.application_id, delivery_applications.actor_path"))
  else
    .ok (rows ++ [applicationRow seq application])

/-- `insert_delivery`. -/
def insertDelivery (s : Store) (record : DeliveryRecord) : Result Store :=
  if s.deliveryLog.any (·.cursor.seq = record.cursor.seq) then
    .error (uniqueViolation "delivery_log.stream_seq")
  else do
    let rows ← record.applications.foldlM (insertDeliveryApplication record.cursor.seq)
      s.deliveryApplications
    return { s with
      deliveryLog := s.deliveryLog ++ [record]
      deliveryApplications := rows }

/-- `projection::enqueue`. -/
def enqueue (s : Store) (streamSeq : Nat) (covenantIds : List CovenantId) : Store :=
  { s with
    optionalProjectionWork :=
      s.optionalProjectionWork.filter (·.deliveryStreamSeq ≠ streamSeq) ++
        [{ deliveryStreamSeq := streamSeq, covenantIds }] }

/-- `finish_canonical_batch`. -/
def finishCanonicalBatch (s : Store) (acceptingBlock : BlockHash) (acceptingDaa : Nat)
    (firstStreamSeq lastStreamSeq : Option Nat) (nextStreamSeq : Nat) : Store :=
  { s with
    canonicalBatches := s.canonicalBatches ++
      [{ acceptingBlock, acceptingDaa, firstStreamSeq, lastStreamSeq }]
    nextStreamSeq }

/-! ## Removal records -/

/-- The `removed` record that cancels `source`. -/
def removalOf (epoch : StreamEpoch) (next : Nat) (source : DeliveryRecord) :
    DeliveryRecord :=
  { source with
    cursor := ⟨epoch, next⟩
    kind := .removed
    sourceCursor := some source.cursor }

/-- One source of `append_removed_deliveries`; the accumulator is the store, the
next sequence and the removals so far. -/
def appendRemoval (acc : Store × Nat × List DeliveryRecord) (source : DeliveryRecord) :
    Result (Store × Nat × List DeliveryRecord) := do
  let (s, next, removals) := acc
  let removal := removalOf s.streamEpoch next source
  let s ← insertDelivery s removal
  let next ← checkedNextStreamSeq next
  return (s, next, removals ++ [removal])

/-- One block of `append_removed_deliveries`. -/
def appendRemovedBlock (acc : Store × Nat × List DeliveryRecord) (block : BlockHash) :
    Result (Store × Nat × List DeliveryRecord) :=
  (acc.1.acceptedSources block).foldlM appendRemoval acc

/-- `append_removed_deliveries`. -/
def appendRemovedDeliveries (s : Store) (removed : List BlockHash) :
    Result (Store × List DeliveryRecord) := do
  let (s, next, removals) ← removed.foldlM appendRemovedBlock (s, s.nextStreamSeq, [])
  return ({ s with nextStreamSeq := next }, removals)

/-! ## Backfill of events that predate the log -/

structure DeliveryMigrationProgress where
  migrated : Nat
  remaining : Nat
  complete : Bool
  historyStartDaa : Nat
  orderComplete : Bool
deriving DecidableEq, Repr

/-- `x.clamp(lo, hi)`. -/
def clamp (x lo hi : Nat) : Nat := min (max x lo) hi

theorem clamp_pos (n : Nat) {m : Nat} (hm : 1 ≤ m) : 1 ≤ clamp n 1 m := by
  unfold clamp
  omega

theorem clamp_le (n m : Nat) : clamp n 1 m ≤ m := min_le_right _ _

/-- `ORDER BY accepting_blue_score, accepting_daa, tx_index, covenant_id, seq`,
with SQLite's `NULL`s first. -/
def backfillKey (row : EventRow) : List Int :=
  [row.acceptingBlueScore.elim (-1) (·), row.acceptingDaa, row.txIndex.elim (-1) (·),
    row.covenantId.bytes.toNat, row.seq]

/-- The unstamped rows of one backfill batch. -/
def backfillRows (s : Store) (limit : Nat) : List EventRow :=
  ((s.covenantEvents.filter (·.deliveryStreamSeq = none)).insertionSort
    fun a b => backfillKey a ≤ backfillKey b).take limit

/-- The accepted record backfilled for an event row. -/
def backfillRecord (epoch : StreamEpoch) (next : Nat) (row : EventRow) : DeliveryRecord :=
  { cursor := ⟨epoch, next⟩
    kind := .accepted
    sourceCursor := none
    covenantId := row.covenantId
    covenantEventSeq := row.seq
    txid := row.txid
    acceptingBlock := row.acceptingBlock
    acceptingDaa := row.acceptingDaa
    txIndex := row.txIndex
    eventIndex := row.eventIndex
    orderComplete :=
      row.acceptingBlueScore.isSome && row.txIndex.isSome && row.eventIndex.isSome
    pendingId := none
    applications := [] }

/-- `UPDATE covenant_events SET delivery_stream_seq = ?1 WHERE covenant_id = ?2 AND
seq = ?3 AND delivery_stream_seq IS NULL`. -/
def stampEvent (next : Nat) (event : EventRow) (rows : List EventRow) : List EventRow :=
  rows.map fun row =>
    if row.covenantId = event.covenantId ∧ row.seq = event.seq ∧
        row.deliveryStreamSeq = none then
      { row with deliveryStreamSeq := some next }
    else
      row

/-- The `ON CONFLICT(accepting_block) DO UPDATE` of the backfill: widen the
bounds of a block's batch to take in one more sequence. -/
def widenBatch (next : Nat) (row : CanonicalBatchRow) : CanonicalBatchRow :=
  { row with
    firstStreamSeq := match row.firstStreamSeq with
      | none => some next
      | some first => if next < first then some next else some first
    lastStreamSeq := match row.lastStreamSeq with
      | none => some next
      | some last => if last < next then some next else some last }

/-- `INSERT INTO canonical_batches … ON CONFLICT … DO UPDATE`. -/
def upsertBackfilledBatch (block : BlockHash) (daa next : Nat)
    (rows : List CanonicalBatchRow) : List CanonicalBatchRow :=
  if rows.any (·.acceptingBlock = block) then
    rows.map fun row => if row.acceptingBlock = block then widenBatch next row else row
  else
    rows ++ [{ acceptingBlock := block
               acceptingDaa := daa
               firstStreamSeq := some next
               lastStreamSeq := some next }]

/-- One row of `backfill_delivery_batch`. -/
def backfillRow (acc : Store × Nat) (row : EventRow) : Result (Store × Nat) := do
  let (s, next) := acc
  let s ← insertDelivery s (backfillRecord s.streamEpoch next row)
  let s := { s with
    covenantEvents := stampEvent next row s.covenantEvents
    canonicalBatches :=
      upsertBackfilledBatch row.acceptingBlock row.acceptingDaa next s.canonicalBatches }
  return (s, ← checkedNextStreamSeq next)

/-- The least accepting DAA among the events: `MIN(accepting_daa)`, or zero. -/
def minEventDaa (rows : List EventRow) : Nat :=
  ((rows.map (·.acceptingDaa)).min?).getD 0

/-- Does every event carry the three columns that fix its order? -/
def eventsOrderComplete (rows : List EventRow) : Bool :=
  !rows.any fun row =>
    row.acceptingBlueScore.isNone || row.txIndex.isNone || row.eventIndex.isNone

/-- `Store::backfill_delivery_batch`. -/
def backfillDeliveryBatch (s : Store) (batchSize : Nat) :
    Result (Store × DeliveryMigrationProgress) :=
  if s.deliveryBackfillComplete then
    .ok (s, { migrated := 0
              remaining := 0
              complete := true
              historyStartDaa := s.deliveryHistoryStartDaa
              orderComplete := s.deliveryHistoryOrderComplete })
  else do
    let rows := backfillRows s (clamp batchSize 1 10000)
    let (s, next) ← rows.foldlM backfillRow (s, s.nextStreamSeq)
    let s := { s with nextStreamSeq := next }
    let remaining : Nat := s.covenantEvents.countP (·.deliveryStreamSeq = none)
    let historyStartDaa := minEventDaa s.covenantEvents
    let orderComplete := remaining == 0 && eventsOrderComplete s.covenantEvents
    let s := if remaining = 0 then
        { s with
          deliveryBackfillComplete := true
          deliveryHistoryStartDaa := historyStartDaa
          deliveryHistoryOrderComplete := orderComplete }
      else
        s
    return (s, { migrated := rows.length
                 remaining
                 complete := remaining = 0
                 historyStartDaa
                 orderComplete })

/-! ## Reading the log -/

structure DeliveryFilter where
  covenantId : Option CovenantId := none
  applicationId : Option String := none
  artifactId : Option (BitVec 256) := none
  actorPath : Option String := none
deriving DecidableEq, Repr

/-- `?n IS NULL OR column = ?n`. -/
def nullOr {α : Type} [DecidableEq α] (wanted : Option α) (value : α) : Bool :=
  match wanted with
  | none => true
  | some w => value = w

/-- The `WHERE` clause of `delivery_page_filtered`, less its cursor bound. -/
def DeliveryFilter.selects (filter : DeliveryFilter) (s : Store) (r : DeliveryRecord) :
    Bool :=
  nullOr filter.covenantId r.covenantId &&
    ((filter.applicationId.isNone && filter.artifactId.isNone && filter.actorPath.isNone) ||
      s.deliveryApplications.any fun row =>
        row.streamSeq = r.cursor.seq && nullOr filter.applicationId row.applicationId &&
          nullOr filter.artifactId row.artifactId && nullOr filter.actorPath row.actorPath)

/-- `delivery_page_filtered_with_cap`. -/
def deliveryPageFilteredWithCap (s : Store) (after : Option StreamCursor) (limit : Nat)
    (filter : DeliveryFilter) (maxLimit : Nat) : Result (List DeliveryRecord) :=
  match after with
  | some cursor =>
      if cursor.epoch ≠ s.streamEpoch then
        .error (.invalid "stream cursor epoch" (toString cursor.epoch.bytes.toHex))
      else
        .ok ((s.deliveryLog.filter fun r =>
          cursor.seq < r.cursor.seq && filter.selects s r).take (clamp limit 1 maxLimit))
  | none =>
      .ok ((s.deliveryLog.filter fun r =>
        0 < r.cursor.seq && filter.selects s r).take (clamp limit 1 maxLimit))

/-- `MAX_PUBLIC_DELIVERY_PAGE`. -/
def maxPublicDeliveryPage : Nat := 1001

/-- `MAX_DELIVERY_REPLAY_PAGE`. -/
def maxDeliveryReplayPage : Nat := 1024

/-- `Store::delivery_page_filtered`. -/
def deliveryPageFiltered (s : Store) (after : Option StreamCursor) (limit : Nat)
    (filter : DeliveryFilter) : Result (List DeliveryRecord) :=
  deliveryPageFilteredWithCap s after limit filter maxPublicDeliveryPage

/-- `Store::delivery_replay_page`. -/
def deliveryReplayPage (s : Store) (after : Option StreamCursor) (limit : Nat) :
    Result (List DeliveryRecord) :=
  deliveryPageFilteredWithCap s after limit {} maxDeliveryReplayPage

end Kascov
