import Kascov.Store.Recovery
import Kascov.Sync.Classify

/-!
# The gap recovery walk

`recover_gap`, step by step: every RPC answer and every committed write is a
step of its own, so that a run may end after any of them and another run resume
from what the store holds.  `finalize_gap_recovery` is modelled less the token
tables, and the report less what the finaliser counts.
-/

namespace Kascov

/-- The calls of `ChainSource` that a recovery makes. -/
structure ChainSource where
  /-- `dag_info().pruning_point`. -/
  pruningPoint : Result BlockHash
  virtualChainFrom : BlockHash → Result ChainStep
  blockWithTxs : BlockHash → Result Block

/-! ## Bodies -/

/-- The transactions a chain block and its mergeset hold, as far as the node
serves them. -/
def heldTransactions (node : ChainSource) (accepting : Block) : List Transaction :=
  accepting.transactions ++ accepting.mergeset.flatMap fun hash ↦
    match node.blockWithTxs hash with
    | .ok block => block.transactions
    | .error _ => []

/-- `bodies.get(id)`.  Transactions with one id have one body. -/
def bodyOf (node : ChainSource) (accepting : Block) (txid : TxId) : Option Transaction :=
  (heldTransactions node accepting).find? (·.txid = txid)

/-- The accepted transactions whose bodies resolved, with their indices. -/
def resolvedTxs (node : ChainSource) (accepted : AcceptedBlock) (accepting : Block) :
    List (Nat × Transaction) :=
  accepted.acceptedTxIds.zipIdx.filterMap fun (txid, i) ↦
    (bodyOf node accepting txid).map fun tx ↦ (i, tx)

/-- How many accepted transactions have no body. -/
def unresolvedCount (node : ChainSource) (accepted : AcceptedBlock) (accepting : Block) : Nat :=
  accepted.acceptedTxIds.dedup.countP fun txid ↦ (bodyOf node accepting txid).isNone

/-! ## What a block contributes -/

/-- The inputs of a transaction that spend cells still live in the store. -/
def missedSpends (s : Store) (tx : Transaction) : List (CovenantId × SpentUtxo) :=
  spentCells s [] tx

/-- One transaction of `reconcile_block`. -/
def reconcileTx (s : Store) (batch : AcceptedBlockBatch) (indexed : Nat × Transaction) :
    AcceptedBlockBatch :=
  let tx := indexed.2
  let spends := missedSpends s tx
  -- the touched covenants in the order of their first input
  let touched := (spends.map (·.1)).reverse.dedup.reverse
  { batch with
    spentUtxos := batch.spentUtxos ++ spends.map (·.2)
    events := batch.events ++ touched.zipIdx.map fun (covenantId, eventIndex) ↦
      { covenantId
        kind := .burn
        txid := tx.txid
        txIndex := indexed.1
        eventIndex
        payload := if tx.payload = [] then none else some tx.payload
        laneNamespace := laneNamespace tx.payload } }

/-- `reconcile_block`. -/
def reconcileBlock (s : Store) (accepted : AcceptedBlock) (accepting : Block)
    (txs : List (Nat × Transaction)) : AcceptedBlockBatch :=
  txs.foldl (reconcileTx s)
    { acceptingBlock := accepted.acceptingBlock
      acceptingDaa := accepting.daaScore
      acceptingTimeMs := accepting.timestampMs
      acceptingBlueScore := accepting.blueScore }

/-- The genesis rescue: the first event of a covenant that proves its genesis. -/
def rescueGenesis (compute : ComputeCovenantId) (s : Store) (daa : Nat)
    (body : TxId → Option Transaction) (event : NewEvent) : NewEvent :=
  if event.kind = .genesis ∨ s.hasEventAtOrBelow event.covenantId daa = true then event
  else
    match body event.txid with
    | some tx =>
        if isValidGenesis compute tx event.covenantId then { event with kind := .genesis }
        else event
    | none => event

/-- The capture of a block in the window. -/
def captureBlock (compute : ComputeCovenantId) (node : ChainSource) (s : Store)
    (accepted : AcceptedBlock) (accepting : Block) : AcceptedBlockBatch :=
  let batch := classify compute s accepted accepting noApplicationDecoder
    (resolvedTxs node accepted accepting)
  { batch with
    events := batch.events.map
      (rescueGenesis compute s accepting.daaScore (bodyOf node accepting)) }

/-! ## The window of a run -/

structure GapRecoveryOptions where
  fromDaa : Option Nat := none
  toDaa : Option Nat := none
  minGapDaa : Nat := 100000
  anchorBlock : Option BlockHash := none
deriving DecidableEq, Repr

/-- `Store::find_daa_gap`: the widest step between consecutive indexed scores. -/
def findDaaGap (s : Store) (minSpan : Nat) : Option (Nat × Nat) :=
  let scores := (s.covenantEvents.map (·.acceptingDaa)).dedup.insertionSort (· ≤ ·)
  (((scores.zip scores.tail).filter fun g ↦ minSpan ≤ g.2 - g.1).insertionSort
    fun a b ↦ b.2 - b.1 ≤ a.2 - a.1).head?

/-- `Store::gap_recoveries`, newest first. -/
def Store.recoveredWindows (s : Store) : List (Nat × Nat) :=
  (s.gapRecoveries.map fun e ↦ (e.fromDaa, e.toDaa)).reverse

/-- The bounds a run settles on, and whether a record already covers them. -/
structure GapWindow where
  lo : Nat
  hi : Nat
  alreadyRecovered : Bool
deriving DecidableEq, Repr

/-- The bounds of a run: explicit, pending, recorded or detected. -/
def gapBounds (s : Store) (opts : GapRecoveryOptions) : Result GapWindow :=
  match opts.fromDaa, opts.toDaa with
  | some lo, some hi =>
      if lo < hi then .ok ⟨lo, hi, false⟩
      else .error (.invalid "gap bounds" "--from-daa must be below --to-daa")
  | none, none =>
      match s.gapRecoveryPending with
      | some (lo, hi) => .ok ⟨lo, hi, false⟩
      | none =>
          match s.recoveredWindows.head? with
          | some (lo, hi) => .ok ⟨lo, hi, true⟩
          | none =>
              match findDaaGap s opts.minGapDaa with
              | some (lo, hi) => .ok ⟨lo, hi, false⟩
              | none => .error (.invalid "gap detection"
                  s!"no DAA discontinuity ≥ {opts.minGapDaa} found in covenant_events — nothing to recover (or pass explicit bounds)")
  | _, _ => .error (.invalid "gap bounds" "--from-daa and --to-daa must be given together")

/-- Bounds inside a recorded window are recovered, unless an anchor is named. -/
def gapWindow (s : Store) (opts : GapRecoveryOptions) : Result GapWindow :=
  (gapBounds s opts).map fun window ↦
    { window with
      alreadyRecovered := window.alreadyRecovered ||
        (opts.anchorBlock.isNone &&
          s.recoveredWindows.any fun r ↦ r.1 ≤ window.lo ∧ window.hi ≤ r.2) }

/-! ## The run -/

/-- `GapRecoveryReport`, the tallies of the walk. -/
structure GapRecoveryReport where
  gapLo : Nat
  gapHi : Nat
  alreadyRecovered : Bool := false
  chainBlocksWalked : Nat := 0
  blocksCaptured : Nat := 0
  eventsAdded : Nat := 0
  utxosAdded : Nat := 0
  spendsRepaired : Nat := 0
  residualBlocks : Nat := 0
  residualTxs : Nat := 0
  residualDaaLo : Nat := 0
  residualDaaHi : Nat := 0
deriving DecidableEq, Repr

/-- The variables of a run between two steps.  `batch` holds the blocks of the
last answer not processed yet, with the cursor to take after them. -/
structure GapWalk where
  gapLo : Nat
  gapHi : Nat
  stopDaa : Nat
  cursor : BlockHash
  batch : Option (List AcceptedBlock × BlockHash) := none
  merged : MergeCounts := {}
  report : GapRecoveryReport
deriving DecidableEq, Repr

/-- What a step leaves of a run. -/
inductive GapOutcome where
  | walking (walk : GapWalk)
  | returned (report : GapRecoveryReport)
  | failed (error : Error)
deriving DecidableEq, Repr

/-- The walk's first position: the saved cursor, else the anchor, else the
pruning point. -/
def startCursor (s : Store) (opts : GapRecoveryOptions) (pruningPoint : BlockHash) : BlockHash :=
  s.gapWalkCursor.getD (opts.anchorBlock.getD pruningPoint)

/-- `recover_gap` up to the loop. -/
def beginGap (node : ChainSource) (opts : GapRecoveryOptions) (s : Store) : Store × GapOutcome :=
  match gapWindow s opts with
  | .error e => (s, .failed e)
  | .ok window =>
      let report : GapRecoveryReport := { gapLo := window.lo, gapHi := window.hi }
      if window.alreadyRecovered then (s, .returned { report with alreadyRecovered := true })
      else
        let s := { s with gapRecoveryPending := some (window.lo, window.hi) }
        match node.pruningPoint with
        | .error e => (s, .failed e)
        | .ok pruningPoint =>
            (s, .walking
              { gapLo := window.lo
                gapHi := window.hi
                stopDaa := max (s.processedDaa.getD window.hi) window.hi
                cursor := startCursor s opts pruningPoint
                report })

/-- The end of the loop: the window is finalised and recorded. -/
def finishGap (s : Store) (walk : GapWalk) : Store × GapOutcome :=
  (finalizeGapRecovery s walk.gapLo walk.gapHi walk.merged,
    .returned
      { walk.report with
        eventsAdded := walk.merged.eventsAdded
        utxosAdded := walk.merged.utxosAdded
        spendsRepaired := walk.merged.spendsRepaired })

/-- The residual tallies after a block. -/
def addResidual (report : GapRecoveryReport) (unresolved daa : Nat) : GapRecoveryReport :=
  if 0 < unresolved then
    { report with
      residualBlocks := report.residualBlocks + 1
      residualTxs := report.residualTxs + unresolved
      residualDaaLo := if report.residualDaaLo = 0 then daa else min report.residualDaaLo daa
      residualDaaHi := max report.residualDaaHi daa }
  else report

/-- A batch that holds nothing is not merged. -/
def mergeUnlessEmpty (dec : Decoders) (s : Store) (batch : AcceptedBlockBatch) :
    Store × MergeCounts :=
  if batch.events = [] ∧ batch.createdUtxos = [] ∧ batch.spentUtxos = [] then (s, {})
  else mergeRecoveredBlock dec s batch

/-- What a block at or above the window contributes. -/
def gapBatch (compute : ComputeCovenantId) (node : ChainSource) (gapHi : Nat) (s : Store)
    (accepted : AcceptedBlock) (accepting : Block) : AcceptedBlockBatch :=
  if accepting.daaScore ≤ gapHi then captureBlock compute node s accepted accepting
  else reconcileBlock s accepted accepting (resolvedTxs node accepted accepting)

/-- A step between two batches: the node is asked for what follows the cursor. -/
def fetchBatch (node : ChainSource) (s : Store) (walk : GapWalk) : Store × GapOutcome :=
  match node.virtualChainFrom walk.cursor with
  | .error e => (s, .failed e)
  | .ok step =>
      if step.removed ≠ [] then
        (s, .failed (.rpc s!"chain reorged under the recovery walk at {walk.cursor.bytes.toHex} ({step.removed.length} removed) — re-run recover-gap"))
      else
        match step.added.getLast? with
        | none => finishGap s walk
        | some last =>
            match node.blockWithTxs last.acceptingBlock with
            | .error e => (s, .failed e)
            | .ok lastBlock =>
                if lastBlock.daaScore < walk.gapLo then
                  ({ s with gapWalkCursor := some last.acceptingBlock },
                    .walking
                      { walk with
                        cursor := last.acceptingBlock
                        report :=
                          { walk.report with
                            chainBlocksWalked :=
                              walk.report.chainBlocksWalked + step.added.length } })
                else (s, .walking { walk with batch := some (step.added, last.acceptingBlock) })

/-- A step inside a batch: one chain block. -/
def walkBlock (compute : ComputeCovenantId) (dec : Decoders) (node : ChainSource) (s : Store)
    (walk : GapWalk) (accepted : AcceptedBlock) (rest : List AcceptedBlock)
    (nextCursor : BlockHash) : Store × GapOutcome :=
  match node.blockWithTxs accepted.acceptingBlock with
  | .error e => (s, .failed e)
  | .ok accepting =>
      let walk := { walk with
        batch := some (rest, nextCursor)
        report := { walk.report with
          chainBlocksWalked := walk.report.chainBlocksWalked + 1 } }
      if accepting.daaScore < walk.gapLo then (s, .walking walk)
      else if walk.stopDaa < accepting.daaScore then finishGap s walk
      else
        let merged := mergeUnlessEmpty dec s
          (gapBatch compute node walk.gapHi s accepted accepting)
        let report := addResidual walk.report (unresolvedCount node accepted accepting)
          accepting.daaScore
        (merged.1, .walking
          { walk with
            merged := walk.merged.add merged.2
            report := { report with
              blocksCaptured := report.blocksCaptured +
                if accepting.daaScore ≤ walk.gapHi then 1 else 0 } })

/-- One step of the loop. -/
def walkStep (compute : ComputeCovenantId) (dec : Decoders) (node : ChainSource) (s : Store)
    (walk : GapWalk) : Store × GapOutcome :=
  match walk.batch with
  | none => fetchBatch node s walk
  | some (accepted :: rest, nextCursor) =>
      walkBlock compute dec node s walk accepted rest nextCursor
  | some ([], nextCursor) =>
      ({ s with gapWalkCursor := some nextCursor },
        .walking { walk with cursor := nextCursor, batch := none })

end Kascov
