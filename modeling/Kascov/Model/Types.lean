import Mathlib

/-!
# The node-facing data model

The types of `model.rs`, `application.rs` and `delivery.rs`: hashes,
transactions with their covenant bindings, chain blocks as the node reports
them, decoder results, and the records of the delivery stream.

A 32-byte hash is a `BitVec 256`, read big-endian, so that the byte order used
by the sorted collections of the source is the order of `BitVec.toNat`.
Counters and scores (`u32`, `u64`) are natural numbers.
-/

namespace Kascov

/-- The error type of the crate, less the variants no modelled function
returns. -/
inductive Error where
  | rpc (message : String)
  | invalid (what value : String)
deriving DecidableEq, Repr

abbrev Result := Except Error

/-- A result that can be compared, so that a concrete run can be decided. -/
instance {α : Type} [DecidableEq α] : DecidableEq (Result α)
  | .ok a, .ok b => decidable_of_iff (a = b) (by simp)
  | .error a, .error b => decidable_of_iff (a = b) (by simp)
  | .ok _, .error _ => .isFalse (by simp)
  | .error _, .ok _ => .isFalse (by simp)

abbrev Bytes := List UInt8

/-! ## Hashes -/

structure BlockHash where
  bytes : BitVec 256
deriving DecidableEq, Repr

structure TxId where
  bytes : BitVec 256
deriving DecidableEq, Repr

structure CovenantId where
  bytes : BitVec 256
deriving DecidableEq, Repr

namespace CovenantId

/-- The order of `covenant_id.0` in a sorted collection: bytewise, hence by the
big-endian value. -/
instance : LE CovenantId := ⟨fun a b => a.bytes.toNat ≤ b.bytes.toNat⟩

instance : DecidableLE CovenantId := fun a b =>
  inferInstanceAs (Decidable (a.bytes.toNat ≤ b.bytes.toNat))

end CovenantId

structure Outpoint where
  txid : TxId
  index : Nat
deriving DecidableEq, Repr

/-! ## Transactions and blocks -/

/-- Covenant binding on a transaction output (KIP-20). -/
structure CovenantBinding where
  covenantId : CovenantId
  authorizingInput : Nat
deriving DecidableEq, Repr

structure Output where
  value : Nat
  spkVersion : Nat
  spkScript : Bytes
  covenant : Option CovenantBinding
deriving DecidableEq, Repr

structure Input where
  previousOutpoint : Outpoint
  signatureScript : Bytes
  computeBudget : Nat
deriving DecidableEq, Repr

structure Transaction where
  txid : TxId
  version : Nat
  inputs : List Input
  outputs : List Output
  payload : Bytes
deriving DecidableEq, Repr

structure Block where
  hash : BlockHash
  daaScore : Nat
  blueScore : Nat
  timestampMs : Nat
  mergeset : List BlockHash
  transactions : List Transaction
deriving DecidableEq, Repr

/-- A chain block together with the transactions it accepted. -/
structure AcceptedBlock where
  acceptingBlock : BlockHash
  acceptedTxIds : List TxId
deriving DecidableEq, Repr

/-- One step of the virtual selected chain, as reported by the node. -/
structure ChainStep where
  removed : List BlockHash
  added : List AcceptedBlock
deriving DecidableEq, Repr

/-! ## Application decoding -/

structure ApplicationOutput where
  outputIndex : Nat
  covenantId : CovenantId
  applicationId : String
  artifactId : BitVec 256
  actorPath : String
  stateJson : String
deriving DecidableEq, Repr

structure DecodeFailure where
  outputIndex : Option Nat
  applicationId : Option String
  artifactId : Option (BitVec 256)
  code : String
  detail : String
deriving DecidableEq, Repr

structure ApplicationPreprocess where
  rawEnvelope : Option Bytes := none
  applicationPayload : Option Bytes := none
  outputs : List ApplicationOutput := []
  failures : List DecodeFailure := []
deriving DecidableEq, Repr

/-- `trait ApplicationDecoder`: one total function. -/
abbrev ApplicationDecoder := Transaction → ApplicationPreprocess

/-- `NoApplicationDecoder::preprocess`. -/
def noApplicationDecoder : ApplicationDecoder := fun _ => {}

/-! ## The delivery stream -/

structure StreamEpoch where
  bytes : BitVec 128
deriving DecidableEq, Repr

structure StreamCursor where
  epoch : StreamEpoch
  seq : Nat
deriving DecidableEq, Repr

inductive DeliveryKind where
  | accepted
  | removed
  | projectionRepaired
deriving DecidableEq, Repr

/-- The three parts that `pending_event_id` formats as
`{txid}:{covenant_id}:{event_ordinal}`; the text is injective in them. -/
structure PendingEventId where
  txid : TxId
  covenantId : CovenantId
  eventOrdinal : Nat
deriving DecidableEq, Repr

structure DeliveryRecord where
  cursor : StreamCursor
  kind : DeliveryKind
  sourceCursor : Option StreamCursor
  covenantId : CovenantId
  covenantEventSeq : Int
  txid : TxId
  acceptingBlock : BlockHash
  acceptingDaa : Nat
  txIndex : Option Nat
  eventIndex : Option Nat
  orderComplete : Bool
  pendingId : Option PendingEventId
  applications : List ApplicationOutput
deriving DecidableEq, Repr

structure CommittedBatch where
  cursor : BlockHash
  processedDaa : Nat
  deliveries : List DeliveryRecord
deriving DecidableEq, Repr

structure CommittedRemovalBatch where
  removedBlocks : List BlockHash
  deliveries : List DeliveryRecord
deriving DecidableEq, Repr

/-! ## Batches prepared by the sync engine -/

inductive EventKind where
  | genesis
  | transition
  | burn
deriving DecidableEq, Repr

structure NewEvent where
  covenantId : CovenantId
  kind : EventKind
  txid : TxId
  txIndex : Nat
  eventIndex : Nat
  payload : Option Bytes
  laneNamespace : Option Bytes
deriving DecidableEq, Repr

structure NewUtxo where
  outpoint : Outpoint
  covenantId : CovenantId
  value : Nat
  spkVersion : Nat
  spkScript : Bytes
deriving DecidableEq, Repr

/-- The tuple `(Outpoint, TxId, Vec<u8>, u16, u32)` of
`AcceptedBlockBatch::spent_utxos`. -/
structure SpentUtxo where
  outpoint : Outpoint
  spendingTxid : TxId
  sig : Bytes
  budget : Nat
  inputIndex : Nat
deriving DecidableEq, Repr

structure AcceptedTransaction where
  txid : TxId
  transaction : Transaction
  application : ApplicationPreprocess
deriving DecidableEq, Repr

/-- `AcceptedTransaction::prepare`. -/
def AcceptedTransaction.prepare (tx : Transaction) (decoder : ApplicationDecoder) :
    AcceptedTransaction :=
  { txid := tx.txid, transaction := tx, application := decoder tx }

/-- Immutable facts prepared for one accepted block before a write begins. -/
structure AcceptedBlockBatch where
  acceptingBlock : BlockHash
  acceptingDaa : Nat := 0
  acceptingTimeMs : Nat := 0
  acceptingBlueScore : Nat := 0
  events : List NewEvent := []
  createdUtxos : List NewUtxo := []
  spentUtxos : List SpentUtxo := []
  transactions : List AcceptedTransaction := []
deriving DecidableEq, Repr

/-- `AcceptedBlockBatch::empty`. -/
def AcceptedBlockBatch.empty (acceptingBlock : BlockHash) : AcceptedBlockBatch :=
  { acceptingBlock }

/-- `lane_namespace`: a leading 4-byte app tag followed by 16 zero bytes.  The
source returns the tag in hex; we keep its four bytes. -/
def laneNamespace (payload : Bytes) : Option Bytes :=
  if 20 ≤ payload.length ∧ ((payload.drop 4).take 16).all (· == 0) then
    some (payload.take 4)
  else
    none

end Kascov
