import Kascov.Lib.Json
import Kascov.Model.Consensus
import Kascov.Web.Hex

/-!
# The fields of a submitted transaction

The first half of `preflight.rs`: a transaction is read from JSON as far as it can be read.  A
field may be spelled in camel case or in snake case, a number may be a string, and what
cannot be read is treated as absent; what is worth saying about it is logged.
-/

namespace Kascov.Preflight

/-! ## Findings -/

inductive Severity where
  | error
  | warn
  | info
deriving DecidableEq, Repr

structure Finding where
  severity : Severity
  code : String
  message : String
  inputIndex : Option Nat := none
  suggestion : Option String := none
deriving DecidableEq, Repr

/-- `ParseLog`. -/
structure ParseLog where
  findings : List Finding := []
  snakeSeen : List String := []
  unknown : List String := []

/-- What reads a part of the body and logs. -/
abbrev Parse := StateM ParseLog

/-! ## Tolerant access -/

/-- A number, as far as it is asked for: one that fits a `u64`, or another. -/
inductive JsonNumber where
  | unsigned (n : UInt64)
  | other
deriving DecidableEq, Repr

abbrev Value := Json JsonNumber

/-- The fields of an object. -/
abbrev Object := List (String × Value)

/-- `as_object`. -/
def asObject : Value → Option Object
  | .obj fields => some fields
  | _ => none

/-- `char::is_whitespace`. -/
def isWhitespace (c : Char) : Bool :=
  let n := c.toNat
  (9 ≤ n && n ≤ 13) || n = 0x20 || n = 0x85 || n = 0xa0 || n = 0x1680 ||
    (0x2000 ≤ n && n ≤ 0x200a) || n = 0x2028 || n = 0x2029 || n = 0x202f || n = 0x205f ||
    n = 0x3000

/-- `str::trim`. -/
def trimText (s : Text) : Text :=
  ((s.dropWhile isWhitespace).reverse.dropWhile isWhitespace).reverse

/-- `trim_start_matches("0x")`. -/
def trimMarker : Text → Text
  | '0' :: 'x' :: rest => trimMarker rest
  | s => s

/-- The value of decimal digits after the digits of `n`. -/
def digitsValue (n : Nat) : Text → Option Nat
  | [] => some n
  | c :: rest => if c.isDigit then digitsValue (10 * n + (c.toNat - 48)) rest else none

/-- `str::parse::<u64>`. -/
def parseU64 (s : Text) : Option UInt64 :=
  match (match s with | '+' :: rest => rest | s => s) with
  | [] => none
  | digits => ((digitsValue 0 digits).filter (· < 2 ^ 64)).map UInt64.ofNat

/-- `as_u64`. -/
def asU64 : Value → Option UInt64
  | .num (.unsigned n) => some n
  | .str s => parseU64 (trimText s.toList)
  | _ => none

/-- `as_hex`. -/
def asHex : Value → Option Bytes
  | .str s => hexBytes (trimMarker (trimText s.toList))
  | _ => none

/-- `as_hex32`. -/
def asHex32 (v : Value) : Option Bytes32 := (asHex v).bind toBytes32

/-- `snake_of`. -/
def snakeOf (camel : String) : String :=
  .ofList (camel.toList.flatMap fun c ↦ if c.isUpper then ['_', c.toLower] else [c])

/-- `field`: the value, and whether it was found in snake case. -/
def field (obj : Object) (camel : String) : Option Value × Bool :=
  match obj.lookup camel with
  | some v => (some v, false)
  | none =>
      if snakeOf camel ≠ camel then
        match obj.lookup (snakeOf camel) with
        | some v => (some v, true)
        | none => (none, false)
      else (none, false)

/-! ## The log -/

namespace ParseLog

def push (log : ParseLog) (finding : Finding) : ParseLog :=
  { log with findings := log.findings ++ [finding] }

/-- `ParseLog::snake`. -/
def snake (log : ParseLog) (camel : String) (inputIndex : Option Nat) : ParseLog :=
  let name := snakeOf camel
  if name ∈ log.snakeSeen then log
  else
    { log with snakeSeen := log.snakeSeen ++ [name] }.push
      (if name = "compute_budget" then
        { severity := .warn
          code := "snake_case_field"
          message := "`compute_budget` is spelled snake_case — SDK serializers pinned to " ++
            "pre-Toccata wire formats silently drop the field, so the node sees budget 0 and " ++
            "answers `limit=9999` no matter what your local object said. This preflight mirrors " ++
            "the node and ignores it too; spell it `computeBudget` in Toccata-aware tooling."
          inputIndex
          suggestion := some "rename compute_budget → computeBudget" }
      else
        { severity := .info
          code := "snake_case_field"
          message := s!"`{name}` is spelled snake_case — accepted here, but Toccata-era SDK " ++
            s!"dictionaries expect camelCase (`{camel}`); serializers frozen pre-Toccata may " ++
            "drop it"
          inputIndex })

/-- `ParseLog::unknown_keys`. -/
def unknownKeys (log : ParseLog) (obj : Object) (known : List String) : ParseLog :=
  { log with unknown := (obj.map Prod.fst).foldl (fun unknown key ↦
      if known.any (fun k ↦ key = k || key = snakeOf k) || key ∈ unknown then unknown
      else unknown ++ [key]) log.unknown }

end ParseLog

/-- An entry of the log, on a condition. -/
def logIf (c : Bool) (entry : ParseLog → ParseLog) : Parse Unit :=
  modify fun log ↦ if c then entry log else log

/-- A field, its snake case logged. -/
def getField (obj : Object) (camel : String) (inputIndex : Option Nat := none) :
    Parse (Option Value) := do
  logIf (field obj camel).2 (·.snake camel inputIndex)
  pure (field obj camel).1

/-- The first of several fields that can be read. -/
def firstField {α : Type} (obj : Object) (inputIndex : Option Nat) (read : Value → Option α) :
    List String → Parse (Option α)
  | [] => pure none
  | k :: names => do
      let v ← getField obj k inputIndex
      match v.bind read with
      | some a => pure (some a)
      | none => firstField obj inputIndex read names

def unknownKeys (obj : Object) (known : List String) : Parse Unit :=
  modify (·.unknownKeys obj known)

/-! ## The transaction -/

/-- `PInput`. -/
structure PInput where
  outpointTxid : Option Bytes32 := none
  outpointIndex : UInt32 := 0
  sequence : UInt64 := 0
  sigOpCount : Option UInt64 := none
  computeBudget : Option UInt64 := none
  signatureScript : Option Bytes := none
  utxoAmount : Option UInt64 := none
  utxoSpk : Option (UInt16 × Bytes) := none
  utxoCovenantId : Option Bytes32 := none
deriving DecidableEq, Repr

/-- `POutput`, with the covenant id and the authorizing input. -/
structure POutput where
  value : Option UInt64 := none
  spk : Option (UInt16 × Bytes) := none
  covenant : Option (Bytes32 × UInt16) := none
deriving DecidableEq, Repr

/-- `PTx`. -/
structure PTx where
  version : Option UInt64
  inputs : List PInput
  outputs : List POutput
  lockTime : UInt64
  payload : Bytes
deriving DecidableEq, Repr

def MAX_TX_IO : Nat := 1000

/-- `parse_spk`. -/
def parseSpk (v : Value) (inputIndex : Option Nat) : Parse (Option (UInt16 × Bytes)) :=
  match v with
  | .str _ => pure ((asHex v).map fun script ↦ (0, script))
  | .obj obj => do
      unknownKeys obj ["version", "script", "scriptPublicKey", "hex"]
      let version ← getField obj "version" inputIndex
      let script ← firstField obj inputIndex asHex ["script", "scriptPublicKey", "hex"]
      pure (script.map fun script ↦ (((version.bind asU64).getD 0).toUInt16, script))
  | _ => pure none

/-- `parse_spk` of a field that may not be there. -/
def parseSpkOf (spk : Option Value) (inputIndex : Option Nat) :
    Parse (Option (UInt16 × Bytes)) :=
  match spk with
  | none => pure none
  | some v => parseSpk v inputIndex

/-- `previousOutpoint` of an input. -/
def parseOutpoint (outpoint : Option Value) (i : Nat) : Parse (Option Bytes32 × UInt32) :=
  match outpoint.bind asObject with
  | none => pure (none, 0)
  | some oobj => do
      unknownKeys oobj ["transactionId", "index"]
      let txid ← getField oobj "transactionId" (some i)
      let index ← getField oobj "index" (some i)
      pure (txid.bind asHex32, ((index.bind asU64).getD 0).toUInt32)

/-- `computeBudget` of an input: camel case only. -/
def parseBudget (iobj : Object) (i : Nat) : Parse (Option UInt64) :=
  match iobj.lookup "computeBudget" with
  | some v => do
      logIf (asU64 v).isNone (·.push
        { severity := .warn
          code := "bad_number"
          message := s!"input {i}: computeBudget isn't a readable integer — treating it as absent"
          inputIndex := some i })
      pure (asU64 v)
  | none => do
      logIf (iobj.lookup "compute_budget").isSome (·.snake "computeBudget" (some i))
      pure none

/-- `signatureScript` of an input. -/
def parseSignatureScript (iobj : Object) (i : Nat) : Parse (Option Bytes) := do
  let sig ← getField iobj "signatureScript" (some i)
  match sig with
  | none => pure none
  | some .null => pure none
  | some v =>
      logIf (asHex v).isNone (·.push
        { severity := .warn
          code := "bad_hex"
          message := s!"input {i}: signatureScript isn't valid hex — treating it as absent"
          inputIndex := some i })
      pure (asHex v)

/-- The amount, the script and the covenant id of the utxo of an input. -/
def parseUtxo (iobj : Object) (i : Nat) :
    Parse (Option UInt64 × Option (UInt16 × Bytes) × Option Bytes32) := do
  let utxo ← firstField iobj (some i) asObject ["utxo", "utxoEntry"]
  match utxo with
  | none => pure (none, none, none)
  | some uobj =>
      unknownKeys uobj
        ["amount", "value", "scriptPublicKey", "blockDaaScore", "isCoinbase", "covenantId"]
      let amount ← firstField uobj (some i) asU64 ["amount", "value"]
      let spk ← getField uobj "scriptPublicKey" (some i)
      let spk ← parseSpkOf spk (some i)
      let cov ← getField uobj "covenantId" (some i)
      pure (amount, spk, cov.bind asHex32)

/-- The turn of `parse` at an input. -/
def parseInput (i : Nat) (iv : Value) : Parse PInput :=
  match asObject iv with
  | none => pure {}
  | some iobj => do
      unknownKeys iobj
        ["previousOutpoint", "sequence", "sigOpCount", "computeBudget", "signatureScript", "utxo",
          "utxoEntry", "verboseData"]
      let outpoint ← getField iobj "previousOutpoint" (some i)
      let (outpointTxid, outpointIndex) ← parseOutpoint outpoint i
      let sequence ← getField iobj "sequence" (some i)
      let sigops ← getField iobj "sigOpCount" (some i)
      let computeBudget ← parseBudget iobj i
      let signatureScript ← parseSignatureScript iobj i
      let (utxoAmount, utxoSpk, utxoCovenantId) ← parseUtxo iobj i
      pure
        { outpointTxid
          outpointIndex
          sequence := (sequence.bind asU64).getD 0
          sigOpCount := sigops.bind asU64
          computeBudget
          signatureScript
          utxoAmount
          utxoSpk
          utxoCovenantId }

/-- The covenant of an output. -/
def parseCovenant (cov : Option Value) : Parse (Option (Bytes32 × UInt16)) :=
  match cov.bind asObject with
  | none => pure none
  | some cobj => do
      unknownKeys cobj ["covenantId", "id", "authorizingInput"]
      let id ← firstField cobj none asHex32 ["covenantId", "id"]
      let auth ← getField cobj "authorizingInput"
      pure (id.map fun id ↦ (id, ((auth.bind asU64).getD 0).toUInt16))

/-- The turn of `parse` at an output. -/
def parseOutput (ov : Value) : Parse POutput :=
  match asObject ov with
  | none => pure {}
  | some oobj => do
      unknownKeys oobj ["value", "amount", "scriptPublicKey", "covenant", "verboseData"]
      let value ← firstField oobj none asU64 ["value", "amount"]
      let spk ← getField oobj "scriptPublicKey"
      let spk ← parseSpkOf spk none
      let cov ← getField oobj "covenant"
      let covenant ← parseCovenant cov
      pure { value, spk, covenant }

/-- What `parse` makes of the object of a transaction. -/
def parseObject (obj : Object) : Parse PTx := do
  unknownKeys obj
    ["version", "inputs", "outputs", "lockTime", "subnetworkId", "gas", "payload", "mass", "id",
      "transaction", "allowOrphan", "verboseData"]
  let version ← getField obj "version"
  let lockTime ← getField obj "lockTime"
  let payload ← getField obj "payload"
  let inputsV ← getField obj "inputs"
  let inputsV := (inputsV.bind Json.items?).getD []
  let outputsV ← getField obj "outputs"
  let outputsV := (outputsV.bind Json.items?).getD []
  let inputs ← (inputsV.take MAX_TX_IO).zipIdx.mapM fun iv ↦ parseInput iv.2 iv.1
  let outputs ← (outputsV.take MAX_TX_IO).mapM parseOutput
  logIf ( MAX_TX_IO < inputsV.length || MAX_TX_IO < outputsV.length) (·.push
    { severity := .error
      code := "too_many_io"
      message := s!"{inputsV.length} inputs / {outputsV.length} outputs — consensus caps both " ++
        s!"at { MAX_TX_IO}; only the first { MAX_TX_IO} were analyzed" })
  pure
    { version := version.bind asU64
      inputs
      outputs
      lockTime := (lockTime.bind asU64).getD 0
      payload := (payload.bind asHex).getD [] }

/-- The object of the transaction: the body, or what the submit wrapper holds. -/
def transactionObject (root : Object) : Object :=
  ((root.lookup "transaction").bind asObject).getD root

/-- `parse`, with a parser of JSON. -/
def parse (fromStr : String → Except String Value) (body : String) :
    Except String (PTx × ParseLog) :=
  match fromStr body with
  | .error e => .error s!"not valid JSON: {e}"
  | .ok root =>
      match asObject root with
      | none => .error "expected a JSON object describing a transaction"
      | some root => .ok ((parseObject (transactionObject root)).run {})

end Kascov.Preflight
