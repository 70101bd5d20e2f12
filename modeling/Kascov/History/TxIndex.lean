import Kascov.Lib.Lineage
import Kascov.Store.Tables

/-!
# The backfill of the acceptance order

`backfill_tx_index`: the event rows from before the acceptance order was kept are stamped
with the place of their transaction in the accepted list of their block.  The chain is
walked from the pruning point to the sync cursor, a response of the node at a time, and the
last block of each response is recorded, so that a run that is cut off is taken up there.
-/

namespace Kascov.TxIndex

/-! ## The store -/

/-- The value under `tx_index_backfilled_to`. -/
inductive Mark where
  | block (hash : BlockHash)
  | done
deriving DecidableEq, Repr

/-- What the backfill reads and writes of the store. -/
structure IndexStore where
  covenantEvents : List EventRow
  cursor : Option BlockHash
  txIndexBackfilledTo : Option Mark
deriving DecidableEq, Repr

/-- `tx_index_backfill_resume`. -/
def IndexStore.resume (s : IndexStore) : Option BlockHash :=
  match s.txIndexBackfilledTo with
  | some (.block hash) => some hash
  | _ => none

/-- The rows the `UPDATE` of `stamp_tx_indices` matches. -/
def matchesTx (block : BlockHash) (txid : TxId) (e : EventRow) : Bool :=
  e.acceptingBlock = block && e.txid = txid && e.txIndex = none

/-- One `UPDATE`, and how many rows it changed. -/
def updateTx (block : BlockHash) (s : List EventRow × Nat) (tx : TxId × Nat) :
    List EventRow × Nat :=
  (s.1.map fun e ↦ if matchesTx block tx.1 e then { e with txIndex := some tx.2 } else e,
    s.2 + s.1.countP (matchesTx block tx.1))

/-- The turn of the loop of `stamp_tx_indices` for a block: a probe, and an update for each
transaction. -/
def stampBlock (s : List EventRow × Nat) (block : BlockHash × List (TxId × Nat)) :
    List EventRow × Nat :=
  if s.1.any fun e ↦ e.acceptingBlock = block.1 && e.txIndex = none then
    block.2.foldl (updateTx block.1) s
  else s

/-- `stamp_tx_indices`, in one transaction. -/
def stampTxIndices (events : List EventRow) (blocks : List (BlockHash × List (TxId × Nat))) :
    List EventRow × Nat :=
  blocks.foldl stampBlock (events, 0)

/-! ## The node -/

/-- The node, as one run meets it: each call is answered as of its number. -/
structure TimedSource where
  pruningPoint : Nat → Result BlockHash
  virtualChainFrom : Nat → BlockHash → Result ChainStep

/-- The call for the next response, and how many calls were made.  A resume point the node
refuses is given up for the pruning point. -/
def walkFrom (node : TimedSource) (calls : Nat) (cursor : BlockHash) : Result ChainStep × Nat :=
  match node.virtualChainFrom calls cursor with
  | .ok step => (.ok step, calls + 1)
  | .error e =>
      match node.pruningPoint (calls + 1) with
      | .error e => (.error e, calls + 2)
      | .ok pruningPoint =>
          if cursor = pruningPoint then (.error e, calls + 2)
          else (node.virtualChainFrom (calls + 2) pruningPoint, calls + 3)

/-- The blocks of a response up to the sync cursor, and whether it was reached. -/
def takeThrough (stop : Option BlockHash) : List AcceptedBlock → List AcceptedBlock × Bool
  | [] => ([], false)
  | a :: rest =>
      if some a.acceptingBlock = stop then ([a], true)
      else (a :: (takeThrough stop rest).1, (takeThrough stop rest).2)

/-- An accepted block with its positions. -/
def positions (a : AcceptedBlock) : BlockHash × List (TxId × Nat) :=
  (a.acceptingBlock, a.acceptedTxIds.zipIdx)

/-! ## A run -/

/-- Where a run is: before a call, between the two writes of a response, before the last
write, or at its end. -/
inductive Phase where
  | walking (cursor : BlockHash)
  | recording (last : BlockHash) (reachedStop : Bool)
  | closing
  | returned (r : Result Nat)
deriving DecidableEq

/-- A run of `backfill_tx_index`, with the blocks it has visited. -/
structure Backfill where
  store : IndexStore
  stop : Option BlockHash
  phase : Phase
  stamped : Nat
  calls : Nat
  visited : List BlockHash
deriving DecidableEq

/-- The opening of a run. -/
def start (node : TimedSource) (s : IndexStore) : Backfill :=
  let opened (phase : Phase) (calls : Nat) : Backfill :=
    { store := s, stop := s.cursor, phase, stamped := 0, calls, visited := [] }
  if s.txIndexBackfilledTo = some .done then opened (.returned (.ok 0)) 0
  else if s.cursor = none then opened .closing 0
  else
    match s.resume with
    | some hash => opened (.walking hash) 0
    | none =>
        match node.pruningPoint 0 with
        | .ok pruningPoint => opened (.walking pruningPoint) 1
        | .error e => opened (.returned (.error e)) 1

/-- What a run does with a response that adds blocks. -/
def Backfill.stampResponse (b : Backfill) (calls : Nat) (a : AcceptedBlock)
    (rest : List AcceptedBlock) : Backfill :=
  let batch := takeThrough b.stop (a :: rest)
  let (events, stamped) := stampTxIndices b.store.covenantEvents (batch.1.map positions)
  { b with
    store := { b.store with covenantEvents := events }
    phase := .recording (batch.1.getLastD a).acceptingBlock batch.2
    stamped := b.stamped + stamped
    calls
    visited := b.visited ++ batch.1.map (·.acceptingBlock) }

/-- A step of a run: a call with its stamping, or one write. -/
def Backfill.step (node : TimedSource) (b : Backfill) : Backfill :=
  match b.phase with
  | .walking cursor =>
      match walkFrom node b.calls cursor with
      | (.error e, calls) => { b with phase := .returned (.error e), calls }
      | (.ok response, calls) =>
          match response.added with
          | [] => { b with phase := .closing, calls }
          | a :: rest => b.stampResponse calls a rest
  | .recording last reachedStop =>
      { b with
        store := { b.store with txIndexBackfilledTo := some (.block last) }
        phase := if reachedStop then .closing else .walking last }
  | .closing =>
      { b with
        store := { b.store with txIndexBackfilledTo := some .done }
        phase := .returned (.ok b.stamped) }
  | .returned _ => b

/-- A run after some of its steps. -/
def runFor (node : TimedSource) (s : IndexStore) (steps : Nat) : Backfill :=
  (Backfill.step node)^[steps] (start node s)

end Kascov.TxIndex
