import Kascov.Decode.Known
import Kascov.Decode.Retarget
import Kascov.Preflight.Fields

/-!
# Simulating a spend

`simulate` of `kascov-sim`: a contract that the registry knows is made to trust a stand-in key,
a coin of it is fabricated, and a spend is built, signed and executed.  The consensus crates,
the script engine among them, and the two fresh keys are parameters.
-/

namespace Kascov.Sim

open Consensus Preflight

/-- `SimRequest`. -/
structure SimRequest where
  programHex : String
  entrypoint : String
  recipient : String := "self"
  value : UInt64 := 100000000
  amount : Option UInt64 := none
  trace : Bool := false

/-- `TraceStep`. -/
structure TraceStep where
  op : String
  dstack : List String
  astack : List String
deriving DecidableEq, Repr

/-- `SimResult`. -/
structure SimResult where
  ok : Bool
  pass : Bool
  verdict : String
  template : String
  entrypoint : String
  recipient : String
  outputValue : UInt64
  rule : String
  trace : List TraceStep
  note : String
deriving DecidableEq, Repr

/-- `SimResult::err`. -/
def SimResult.err (entrypoint msg : String) : SimResult where
  ok := false
  pass := false
  verdict := msg
  template := ""
  entrypoint
  recipient := ""
  outputValue := 0
  rule := ""
  trace := []
  note := ""

/-- A key pair: its x-only public key, and how it signs. -/
structure Keypair where
  xonly : Bytes32
  signSchnorr : Bytes32 → { sig : Bytes // sig.length = 64 }

/-- What the crates around the simulation give. -/
structure Crates where
  /-- The fixture files of the decoder. -/
  fixture : String → Bytes
  blake2b32 : Bytes → Bytes32
  payToScriptHashScript : Bytes → ScriptPublicKey
  /-- `pay_to_address_script`, for the address of a public key. -/
  payToPubKeyScript : Bytes → ScriptPublicKey
  /-- `calc_schnorr_signature_hash` of input 0, with `SIG_HASH_ALL`. -/
  schnorrSignatureHash : MutableTransaction → Bytes32
  /-- `run_engine`. -/
  runEngine : MutableTransaction → Bool → Bool × String × List TraceStep

/-- Why no result is made in the ordinary way: a refusal, or a panic. -/
inductive Halt where
  | refused (msg : String)
  | panicked
deriving DecidableEq, Repr

/-- `let Some(..) = .. else { return SimResult::err(..) }`. -/
def orRefuse {α : Type} (o : Option α) (msg : String) : Except Halt α :=
  match o with
  | some a => .ok a
  | none => .error (.refused msg)

def saturatingSub (a b : UInt64) : UInt64 := if b ≤ a then a - b else 0

/-- `failing_rule`. -/
def failingRule (template recipient : String) (value outputValue : UInt64) : String :=
  if template = "SilverScript · Escrow" then
    if outputValue ≠ saturatingSub value 1000 then
      "the output must equal the escrowed value minus the contract's 1000-sompi fee"
    else if recipient ≠ "buyer" ∧ recipient ≠ "seller" then
      "the escrow can only pay the committed buyer or seller — no third address"
    else ""
  else ""

theorem selector_zero : -2 ^ 63 ≤ (0 : Int) ∧ (0 : Int) < 2 ^ 63 := by decide

theorem selector_one : -2 ^ 63 ≤ (1 : Int) ∧ (1 : Int) < 2 ^ 63 := by decide

/-- `spec`: the selector, and the field that the signer must match. -/
def spec (template entrypoint : String) : Option (Option I64 × String) :=
  if template = "SilverScript · Escrow" ∧ entrypoint = "spend" then some (none, "arbiter_hash")
  else if template = "SilverScript · Mecenas" ∧ entrypoint = "reclaim" then
    some (some ⟨1, selector_one⟩, "funder_hash")
  else if template = "SilverScript · LastWill" ∧ entrypoint = "cold" then
    some (some ⟨1, selector_one⟩, "cold_hash")
  else if template = "SilverScript · LastWill" ∧ entrypoint = "inherit" then
    some (some ⟨0, selector_zero⟩, "inheritor_hash")
  else none

/-- `splice_field`. -/
def spliceField (program old : Bytes) (new : Bytes32) : Option Bytes :=
  if old.length ≠ 32 then none else Splice.splice old new.val program

/-- `Address::new`, of a public key: it panics at another length. -/
def addressNew (payload : Bytes) : Except Halt Bytes :=
  if payload.length = 32 then .ok payload else .error .panicked

/-- `p2pk_spk`. -/
def p2pkSpk (crates : Crates) (xonlyPk : Bytes) : Except Halt ScriptPublicKey := do
  let addr ← addressNew xonlyPk
  pure (crates.payToPubKeyScript addr)

/-- The program of a request. -/
def requestProgram (req : SimRequest) : Option Bytes :=
  (hexBytes (trimMarker (trimText req.programHex.toList))).filter (· ≠ [])

/-- The key that a recipient names. -/
def recipientKey (fields : List Field) (recipient : String) (standIn other : Keypair) :
    Except Halt Bytes :=
  if recipient = "buyer" then
    orRefuse (fieldNamed fields "buyer") "this contract has no buyer"
  else if recipient = "seller" then
    orRefuse (fieldNamed fields "seller") "this contract has no seller"
  else if recipient = "other" then .ok other.xonly.val
  else .ok standIn.xonly.val

/-- `SIG_HASH_ALL`. -/
def SIG_HASH_ALL : UInt8 := 1

/-- The value of the fabricated coin. -/
def coinValue (req : SimRequest) : UInt64 := max req.value 1000000

def outputValue (req : SimRequest) : UInt64 :=
  req.amount.getD (saturatingSub (coinValue req) 1000)

/-- The coin of a program and its spend, not yet signed. -/
def unsignedSpend (crates : Crates) (req : SimRequest) (program : Bytes)
    (destSpk : ScriptPublicKey) : MutableTransaction where
  tx :=
    { version := 1
      inputs := [⟨fabricatedOutpoint, [], 0, .computeBudget 60⟩]
      outputs := [⟨outputValue req, destSpk, none⟩]
      lockTime := 0
      subnetworkId := nativeSubnetwork
      gas := 0
      payload := [] }
  entries := [⟨coinValue req, crates.payToScriptHashScript program, 0, false, none⟩]

/-- What the witness pushes: the key, the signature, the selector and the program. -/
def witnessPushes (standIn : Keypair) (sigHash : Bytes32) (selector : Option I64)
    (program : Bytes) : List Bytes :=
  [standIn.xonly.val, (standIn.signSchnorr sigHash).val ++ [SIG_HASH_ALL]] ++
    (selector.map snum).toList ++ [program]

/-- `mtx.tx.inputs[0].signature_script = witness`. -/
def setSignatureScript (mtx : MutableTransaction) (witness : Bytes) : MutableTransaction :=
  { mtx with tx :=
    { mtx.tx with inputs := mtx.tx.inputs.modifyHead fun input ↦
        { input with signatureScript := witness } } }

/-- The spend that is executed: signed by the stand-in key. -/
def signedSpend (crates : Crates) (standIn : Keypair) (req : SimRequest)
    (selector : Option I64) (program : Bytes) (destSpk : ScriptPublicKey) : MutableTransaction :=
  let mtx := unsignedSpend crates req program destSpk
  setSignatureScript mtx
    ((witnessPushes standIn (crates.schnorrSignatureHash mtx) selector program).flatMap encodePush)

/-- `simulate` of a program up to the engine: the template, and the transaction. -/
def buildSpend (crates : Crates) (standIn other : Keypair) (req : SimRequest) (program : Bytes) :
    Except Halt (String × MutableTransaction) := do
  let decoded := (defaultRegistry crates.fixture).decode 0 program
  let template ← orRefuse decoded.template "not a recognized SilverScript contract"
  let (selector, signerField) ← orRefuse (spec template req.entrypoint)
    s!"simulation doesn't support {template} · {req.entrypoint}"
  let committed ← orRefuse (fieldNamed decoded.fields signerField)
    s!"{template} has no {signerField}"
  let program2 ← orRefuse
    (spliceField program committed (crates.blake2b32 standIn.xonly.val))
    "couldn't re-instantiate the contract"
  let recipientPk ← recipientKey decoded.fields req.recipient standIn other
  let destSpk ← p2pkSpk crates recipientPk
  pure (template, signedSpend crates standIn req selector program2 destSpk)

/-- The transaction that `simulate` executes, if it comes to that. -/
def executed (crates : Crates) (standIn other : Keypair) (req : SimRequest) :
    Except Halt (String × MutableTransaction) := do
  let program ← orRefuse (requestProgram req) "program isn't valid hex"
  buildSpend crates standIn other req program

def NOTE : String :=
  "simulated with a stand-in signer — the signature rule always resolves so the amount, " ++
    "destination & timelock rules are what's tested"

/-- The result of an execution. -/
def simResult (crates : Crates) (req : SimRequest) (template : String)
    (mtx : MutableTransaction) : SimResult :=
  let (pass, verdict, trace) := crates.runEngine mtx req.trace
  { ok := true
    pass
    verdict
    template
    entrypoint := req.entrypoint
    recipient := req.recipient
    outputValue := outputValue req
    rule :=
      if pass then "" else failingRule template req.recipient (coinValue req) (outputValue req)
    trace
    note := NOTE }

/-- `simulate`, with the keys it draws: nothing where it panics.  A digest has 32 bytes, so it
is a message. -/
def simulate (crates : Crates) (standIn other : Keypair) (req : SimRequest) :
    Option SimResult :=
  match executed crates standIn other req with
  | .ok (template, mtx) => some (simResult crates req template mtx)
  | .error (.refused msg) => some (.err req.entrypoint msg)
  | .error .panicked => none

/-! ## What an entrypoint asks -/

inductive ConstrainedKind where
  | mecenasReceive
  | lastWillRefresh
deriving DecidableEq, Repr

/-- `EntrypointPlan`. -/
inductive EntrypointPlan where
  | pureSig (selector : Option I64) (signerField : String) (sequence : UInt64)
  | constrained (kind : ConstrainedKind) (selector : I64) (signerField : Option String)
deriving DecidableEq

/-- `entrypoint_spec`. -/
def entrypointSpec (template entrypoint : String) : Except String EntrypointPlan :=
  if template = "SilverScript · Mecenas" ∧ entrypoint = "reclaim" then
    .ok (.pureSig (some ⟨1, by decide⟩) "funder_hash" 0)
  else if template = "SilverScript · LastWill" ∧ entrypoint = "cold" then
    .ok (.pureSig (some ⟨1, by decide⟩) "cold_hash" 0)
  else if template = "SilverScript · LastWill" ∧ entrypoint = "inherit" then
    .ok (.pureSig (some ⟨0, by decide⟩) "inheritor_hash" 180)
  else if template = "SilverScript · Mecenas" ∧ entrypoint = "receive" then
    .ok (.constrained .mecenasReceive ⟨0, by decide⟩ none)
  else if template = "SilverScript · LastWill" ∧ entrypoint = "refresh" then
    .ok (.constrained .lastWillRefresh ⟨2, by decide⟩ (some "hot_hash"))
  else if template = "SilverScript · Escrow" ∧ entrypoint = "spend" then
    .error ("Escrow's spend entrypoint needs a --release-to party — use `settle-escrow` instead " ++
      "of `spend`")
  else .error s!"don't know how to satisfy {template} . {entrypoint}"

/-- The sequence that an entrypoint asks of its input: none is stated for the Escrow. -/
def ageGate (template entrypoint : String) : UInt64 :=
  match entrypointSpec template entrypoint with
  | .ok (.pureSig _ _ sequence) => sequence
  | _ => 0

end Kascov.Sim
