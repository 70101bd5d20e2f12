import Kascov.Model.Types

/-!
# The store: tables and rows

The SQLite tables the sync engine reads and writes, as lists of rows in rowid
order.  An `INSERT` appends, an `UPDATE … WHERE` is a `map`, a `DELETE … WHERE`
is a `filter`, and an `INSERT OR REPLACE` drops the old row and appends.

The JSON columns `data_json`, `covenant_ids_json` and `transaction_json` hold a
serialisation of the very values they are read back as; the rows below carry
the values.  A column that is `NULL` until some writer fills it is an `Option`.
-/

namespace Kascov

/-! ## Covenant tables -/

/-- A row of `covenants`. -/
structure CovenantRow where
  covenantId : CovenantId
  genesisTxid : Option TxId
  genesisDaa : Option Nat
  lineageComplete : Bool
  eventCount : Int
  lastActivityDaa : Nat
deriving DecidableEq, Repr

/-- A row of `covenant_events`.  `seq` is an `Int` because the gap finaliser
parks rows at negative sequence numbers. -/
structure EventRow where
  covenantId : CovenantId
  seq : Int
  kind : EventKind
  txid : TxId
  acceptingBlock : BlockHash
  acceptingDaa : Nat
  payload : Option Bytes
  laneNamespace : Option Bytes
  payloadTag : Option String
  inscriptionKind : Option String
  txIndex : Option Nat
  acceptingTimeMs : Option Nat
  acceptingBlueScore : Option Nat
  eventIndex : Option Nat
  deliveryStreamSeq : Option Nat
deriving DecidableEq, Repr

/-- A row of `covenant_utxos`, keyed by its outpoint.  `kcc1TemplateHash` is
the empty blob when a spend revealed no hash. -/
structure UtxoRow where
  outpoint : Outpoint
  covenantId : CovenantId
  value : Nat
  spkVersion : Nat
  spkScript : Bytes
  createdBlock : BlockHash
  createdDaa : Nat
  spentBlock : Option BlockHash
  spentTxid : Option TxId
  spentSig : Option Bytes
  spentBudget : Option Nat
  template : String
  revealedTemplate : Option String
  kcc1TemplateHash : Option Bytes
  spentInputIndex : Option Nat
deriving DecidableEq, Repr

/-! ## Application tables -/

inductive EnvelopeStatus where
  | valid
  | failed
  | partly
deriving DecidableEq, Repr

/-- A row of `application_envelopes`, keyed by `txid`. -/
structure EnvelopeRow where
  txid : TxId
  acceptingBlock : BlockHash
  acceptingDaa : Nat
  rawEnvelope : Bytes
  applicationPayload : Bytes
  transactionJson : Option Transaction
  status : EnvelopeStatus
deriving DecidableEq, Repr

/-- A row of `application_outputs`, keyed by `(txid, output_index)`. -/
structure ApplicationOutputRow where
  txid : TxId
  output : ApplicationOutput
  createdBlock : BlockHash
  createdDaa : Nat
  spentBlock : Option BlockHash
deriving DecidableEq, Repr

/-- The primary key of `application_outputs`. -/
def ApplicationOutputRow.outpoint (row : ApplicationOutputRow) : Outpoint :=
  ⟨row.txid, row.output.outputIndex⟩

/-- A row of `application_decode_failures`. -/
structure DecodeFailureRow where
  id : Nat
  txid : TxId
  acceptingBlock : BlockHash
  acceptingDaa : Nat
  failure : DecodeFailure
  repairedStreamSeq : Option Nat
deriving DecidableEq, Repr

/-! ## Delivery tables -/

/-- A row of `delivery_applications`. -/
structure DeliveryApplicationRow where
  streamSeq : Nat
  outputIndex : Nat
  applicationId : String
  artifactId : BitVec 256
  actorPath : String
deriving DecidableEq, Repr

/-- A row of `canonical_batches`, keyed by `accepting_block`. -/
structure CanonicalBatchRow where
  acceptingBlock : BlockHash
  acceptingDaa : Nat
  firstStreamSeq : Option Nat
  lastStreamSeq : Option Nat
deriving DecidableEq, Repr

/-- A row of `optional_projection_work`, keyed by `delivery_stream_seq`. -/
structure ProjectionWorkRow where
  deliveryStreamSeq : Nat
  covenantIds : List CovenantId
deriving DecidableEq, Repr

/-- A row of `reorg_log`, less its wall-clock column. -/
structure ReorgRow where
  daa : Nat
  rolledBack : Nat
deriving DecidableEq, Repr

/-- One entry of the `gap_recoveries` meta value, less its wall-clock field. -/
structure GapRecoveryEntry where
  fromDaa : Nat
  toDaa : Nat
  eventsAdded : Nat
  utxosAdded : Nat
  spendsRepaired : Nat
  covenantsRefreshed : Nat
deriving DecidableEq, Repr

/-! ## The store -/

/-- One network's index.  The last block of fields is the `meta` table, one
field a key. -/
structure Store where
  covenants : List CovenantRow := []
  covenantEvents : List EventRow := []
  covenantUtxos : List UtxoRow := []
  applicationEnvelopes : List EnvelopeRow := []
  applicationOutputs : List ApplicationOutputRow := []
  applicationDecodeFailures : List DecodeFailureRow := []
  /-- The `AUTOINCREMENT` counter of `application_decode_failures`. -/
  lastDecodeFailureId : Nat := 0
  deliveryLog : List DeliveryRecord := []
  deliveryApplications : List DeliveryApplicationRow := []
  canonicalBatches : List CanonicalBatchRow := []
  optionalProjectionWork : List ProjectionWorkRow := []
  reorgLog : List ReorgRow := []
  cursor : Option BlockHash := none
  processedDaa : Option Nat := none
  tip : Option Nat := none
  streamEpoch : StreamEpoch
  nextStreamSeq : Nat := 1
  deliveryBackfillComplete : Bool := true
  deliveryHistoryStartDaa : Nat := 0
  deliveryHistoryOrderComplete : Bool := true
  gapRecoveries : List GapRecoveryEntry := []
  gapRecoveryPending : Option (Nat × Nat) := none
  gapWalkCursor : Option BlockHash := none
deriving DecidableEq, Repr

/-- A freshly created index: empty tables, and the meta values of
`store_delivery::migrate` for a schema that is not a legacy one. -/
def Store.fresh (epoch : StreamEpoch) : Store :=
  { streamEpoch := epoch }

/-- The pure functions the writers call to classify bytes: the decode registry,
the P2SH reveal, the KCC-1 template hash, and the payload classifiers.  They
read nothing of the store, and every result below holds for all of them. -/
structure Decoders where
  /-- `registry().decode(version, script).template`. -/
  template : Nat → Bytes → Option String
  /-- `kascov_decode::p2sh_reveal`. -/
  p2shReveal : Bytes → Bytes → Option Bytes
  /-- `kascov_decode::kcc20::kcc1_template_hash`. -/
  kcc1TemplateHash : Bytes → Option Bytes
  /-- `kascov_decode::kcc20::revealed_template(registry(), ..)`. -/
  revealedTemplate : Nat → Bytes → Option String
  payloadTag : Bytes → String
  inscriptionKindOf : Bytes → String

/-- Decoders that recognise nothing. -/
def Decoders.blind : Decoders where
  template _ _ := none
  p2shReveal _ _ := none
  kcc1TemplateHash _ := none
  revealedTemplate _ _ := none
  payloadTag _ := ""
  inscriptionKindOf _ := ""

/-- SQLite's refusal of a second row under a unique key, in the wording of the
`store_delivery` and `store_application` modules. -/
def uniqueViolation (columns : String) : Error :=
  .invalid "sqlite" ("UNIQUE constraint failed: " ++ columns)

/-- `next.checked_add(1).ok_or_else(..)` on a stream sequence. -/
def checkedNextStreamSeq (next : Nat) : Result Nat :=
  if next + 1 < 2 ^ 64 then
    .ok (next + 1)
  else
    .error (.invalid "next stream sequence" (toString (2 ^ 64 - 1)))

namespace Store

/-- `Store::live_covenant_utxo`. -/
def liveCovenantUtxo (s : Store) (outpoint : Outpoint) : Option CovenantId :=
  (s.covenantUtxos.find? fun row =>
    row.outpoint = outpoint ∧ row.spentBlock = none).map (·.covenantId)

/-- `Store::known_covenant`. -/
def knownCovenant (s : Store) (id : CovenantId) : Bool :=
  s.covenants.any (·.covenantId = id)

/-- `Store::has_event_at_or_below`. -/
def hasEventAtOrBelow (s : Store) (id : CovenantId) (daa : Nat) : Bool :=
  s.covenantEvents.any fun row => row.covenantId = id ∧ row.acceptingDaa ≤ daa

/-- `Store::reset_cursor`. -/
def resetCursor (s : Store) (target : BlockHash) : Store :=
  { s with cursor := some target }

/-- `Store::checkpoint_cursor`. -/
def checkpointCursor (s : Store) (target : BlockHash) (processedDaa : Nat) : Store :=
  { s with cursor := some target, processedDaa := some processedDaa }

/-- `Store::set_tip`, less its wall-clock half. -/
def setTip (s : Store) (daa : Nat) : Store :=
  { s with tip := some daa }

end Store

/-- `COALESCE(MAX(seq), -1) + 1` over the events of one covenant. -/
def nextEventSeq (rows : List EventRow) (id : CovenantId) : Int :=
  (rows.filter (·.covenantId = id)).foldl (fun m row => max m row.seq) (-1) + 1

end Kascov
