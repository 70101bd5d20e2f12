import Kascov.Lib.Follow
import Kascov.Lib.Rows
import Kascov.Vesting.State

/-!
# The walk of a vesting lock

`vesting_states` follows a lock from its genesis outpoint: each cell leads to the
one cell of its spending transaction that is shown, by the witness of that spend
or by its own later reveal, to carry the same schedule with no less claimed.
-/

namespace Kascov

/-- `VestingScheduleRow`, less what the walk does not read.  The creator is kept as
the bytes its hex spells. -/
structure VestingScheduleRow where
  lockCovenantId : CovenantId
  creatorPubkey : Bytes
  total : UInt64
  startScore : UInt64
  durationScore : UInt64
  genesisTxid : TxId
  genesisOutputIndex : Nat
deriving DecidableEq

/-- `VestingStateRow.proof`. -/
inductive VestingProof where
  | genesis
  | reveal
  | continuationWitness
deriving DecidableEq, Repr

/-- `VestingStateRow`. -/
structure VestingStateRow where
  txid : TxId
  outputIndex : Nat
  createdDaa : Nat
  claimed : UInt64
  claimedDelta : UInt64
  live : Bool
  proof : VestingProof
deriving DecidableEq

/-- `spent_block IS NULL`. -/
def UtxoRow.live (cell : UtxoRow) : Bool := cell.spentBlock.isNone

/-- `utxos`. -/
def Store.utxos (s : Store) (id : CovenantId) (liveOnly : Bool) : List UtxoRow :=
  (s.covenantUtxos.filter fun row ↦ row.covenantId = id && (!liveOnly || row.live)).insertionSort
    fun a b ↦ a.createdDaa ≤ b.createdDaa

/-- Where the loop stands: a cell, and the state it is proven to carry. -/
structure VestingPosition where
  cell : UtxoRow
  state : VestingState
  proof : VestingProof
deriving DecidableEq

/-- `u64::checked_sub`. -/
def checkedSubU64 (a b : UInt64) : Option UInt64 := if b ≤ a then some (a - b) else none

def cycleError : Error := .invalid "vesting continuation" "cycle in continuation outpoints"

def decreasedError : Error := .invalid "vesting continuation" "claimed counter decreased"

section Loop

variable (tpl : VestingTemplate) (blake2b : Bytes → Bytes) (utxos : List UtxoRow)
  (schedule : VestingScheduleRow) (creator : Bytes32)

/-- The state of the schedule with a given claim. -/
def scheduleState (claimed : UInt64) : VestingState :=
  { creator, total := schedule.total, startScore := schedule.startScore,
    durationScore := schedule.durationScore, claimed }

/-- The state of a candidate, by the witness or by its own reveal. -/
def candidateState (witness : Option Bytes) (candidate : UtxoRow) :
    Option (VestingState × VestingProof) :=
  let recovered := witness.bind (recoverContinuationState tpl blake2b candidate.spkScript creator
    schedule.total schedule.startScore schedule.durationScore)
  let revealed := (candidate.spentSig.bind (p2shReveal blake2b candidate.spkScript)).bind
    (decodeVestingState tpl)
  (recovered.map (·, .continuationWitness)).or (revealed.map (·, .reveal))

/-- `matches`: the candidates that carry on the schedule. -/
def continuations (position : VestingPosition) (nextTxid : TxId) : List VestingPosition :=
  (utxos.filter (·.outpoint.txid = nextTxid)).filterMap fun candidate ↦
    (candidateState tpl blake2b schedule creator position.cell.spentSig candidate).bind fun found ↦
      if found.1.creator = creator ∧ found.1.total = schedule.total ∧
          found.1.startScore = schedule.startScore ∧
          found.1.durationScore = schedule.durationScore ∧
          position.state.claimed ≤ found.1.claimed then
        some ⟨candidate, found.1, found.2⟩
      else none

/-- The loop of `vesting_states`; `none` if it is out of fuel. -/
def vestingLoop : Nat → List Outpoint → UInt64 → VestingPosition →
    Option (Result (List VestingStateRow))
  | 0, _, _, _ => none
  | fuel + 1, seen, previousClaimed, position =>
      if position.cell.outpoint ∈ seen then some (.error cycleError)
      else
        match checkedSubU64 position.state.claimed previousClaimed with
        | none => some (.error decreasedError)
        | some delta =>
            let row : VestingStateRow :=
              { txid := position.cell.outpoint.txid
                outputIndex := position.cell.outpoint.index
                createdDaa := position.cell.createdDaa
                claimed := position.state.claimed
                claimedDelta := delta
                live := position.cell.live
                proof := position.proof }
            if position.cell.live ∨ position.state.claimed = schedule.total then some (.ok [row])
            else
              match position.cell.spentTxid with
              | none => some (.ok [row])
              | some nextTxid =>
                  match continuations tpl blake2b utxos schedule creator position nextTxid with
                  | [next] =>
                      (vestingLoop fuel (position.cell.outpoint :: seen) position.state.claimed
                        next).map fun rest ↦ rest.map (row :: ·)
                  | _ => some (.ok [row])

end Loop

/-- `hex::encode`. -/
def hexEncode (bytes : Bytes) : String :=
  .join (bytes.map fun b ↦ (BitVec.ofNat 8 b.toNat).toHex)

/-- `vesting_states`.  Every turn but the last goes to a cell not seen before. -/
def vestingStates (tpl : VestingTemplate) (blake2b : Bytes → Bytes) (s : Store)
    (schedule : VestingScheduleRow) : Option (Result (List VestingStateRow)) :=
  match toBytes32 schedule.creatorPubkey with
  | none => some (.error (.invalid "vesting creator" (hexEncode schedule.creatorPubkey)))
  | some creator =>
      let utxos := s.utxos schedule.lockCovenantId false
      let genesisState := scheduleState schedule creator 0
      match utxos.find? fun utxo ↦
          utxo.outpoint.txid = schedule.genesisTxid &&
            utxo.outpoint.index = schedule.genesisOutputIndex &&
            proveState tpl blake2b utxo.spkScript genesisState with
      | none => some (.error (.invalid "vesting genesis"
          "stored genesis outpoint no longer reproduces its schedule"))
      | some cell =>
          vestingLoop tpl blake2b utxos schedule creator (utxos.length + 1) [] 0
            ⟨cell, genesisState, .genesis⟩

end Kascov
