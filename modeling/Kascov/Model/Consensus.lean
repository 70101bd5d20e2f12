import Kascov.Token.Tables

/-!
# Consensus transactions

The types of the consensus crate that are built here: a transaction with its inputs and
outputs, and the entries that its inputs spend.
-/

namespace Kascov.Consensus

structure ScriptPublicKey where
  version : UInt16
  script : Bytes
deriving DecidableEq, Repr

structure TransactionOutpoint where
  transactionId : Bytes32
  index : UInt32
deriving DecidableEq, Repr

/-- What an input commits to spend on its script. -/
inductive ComputeCommit where
  | sigopCount (count : UInt8)
  | computeBudget (budget : UInt16)
deriving DecidableEq, Repr

structure TransactionInput where
  previousOutpoint : TransactionOutpoint
  signatureScript : Bytes
  sequence : UInt64
  computeCommit : ComputeCommit
deriving DecidableEq, Repr

structure CovenantBinding where
  authorizingInput : UInt16
  covenantId : Bytes32
deriving DecidableEq, Repr

structure TransactionOutput where
  value : UInt64
  scriptPublicKey : ScriptPublicKey
  covenant : Option CovenantBinding := none
deriving DecidableEq, Repr

structure Transaction where
  version : UInt16
  inputs : List TransactionInput
  outputs : List TransactionOutput
  lockTime : UInt64
  subnetworkId : Bytes
  gas : UInt64
  payload : Bytes
deriving DecidableEq, Repr

structure UtxoEntry where
  amount : UInt64
  scriptPublicKey : ScriptPublicKey
  blockDaaScore : UInt64
  isCoinbase : Bool
  covenantId : Option Bytes32
deriving DecidableEq, Repr

/-- A transaction with the entry that each input spends. -/
structure MutableTransaction where
  tx : Transaction
  entries : List UtxoEntry
deriving DecidableEq, Repr

/-- `SUBNETWORK_ID_NATIVE`. -/
def nativeSubnetwork : Bytes := List.replicate 20 0

/-- `Hash::from_bytes([0; 32])`. -/
def zeroHash : Bytes32 := ⟨List.replicate 32 0, List.length_replicate⟩

/-- The outpoint of a fabricated input. -/
def fabricatedOutpoint : TransactionOutpoint :=
  ⟨⟨List.replicate 32 0x11, List.length_replicate⟩, 0⟩

end Kascov.Consensus
