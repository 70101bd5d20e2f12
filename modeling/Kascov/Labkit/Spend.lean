import Kascov.Lib.Checked
import Kascov.Sim.Simulate

/-!
# Spends that a contract constrains

`kascov-labkit`: script numbers read back, and the offline build of a spend whose outputs the
contract itself dictates.  The consensus crates are parameters, and an overflow is a panic.
-/

namespace Kascov.Labkit

open Consensus Sim

/-- What the crates around the lab give. -/
structure LabCrates where
  /-- The fixture files of the decoder. -/
  fixture : String → Bytes
  blake2b32 : Bytes → Bytes32
  payToScriptHashScript : Bytes → ScriptPublicKey
  /-- `pay_to_address_script`, for the address of a public key. -/
  payToPubKeyScript : Bytes → ScriptPublicKey
  /-- `calc_schnorr_signature_hash` of an input, with `SIG_HASH_ALL`. -/
  schnorrSignatureHash : MutableTransaction → Nat → Bytes32

/-- `SpendableUtxo`. -/
structure SpendableUtxo where
  outpoint : TransactionOutpoint
  entry : UtxoEntry

/-! ## Machine integers -/

/-- The value of an operation, or the panic of its overflow. -/
def orPanic {α : Type} (o : Option α) : Except Halt α :=
  match o with
  | some a => .ok a
  | none => .error .panicked

def addU64 (a b : UInt64) : Except Halt UInt64 :=
  orPanic (if a.toNat + b.toNat < 2 ^ 64 then some (a + b) else none)

def subU64 (a b : UInt64) : Except Halt UInt64 :=
  orPanic (if b ≤ a then some (a - b) else none)

def mulU64 (a b : UInt64) : Except Halt UInt64 :=
  orPanic (if a.toNat * b.toNat < 2 ^ 64 then some (a * b) else none)

/-- `as u64`, of a signed integer. -/
def asU64 (x : Int) : UInt64 := UInt64.ofNat (x % 2 ^ 64).toNat

/-- The loop of `snum_to_i64`, from a byte on. -/
def orBytes : Nat → UInt64 → Bytes → UInt64
  | _, v, [] => v
  | i, v, b :: bytes => orBytes (i + 1) (v ||| b.toUInt64 <<< UInt64.ofNat (8 * i)) bytes

/-- `snum_to_i64`. -/
def snumToI64 (bytes : Bytes) : Except Halt I64 :=
  if 8 < bytes.length then .error (.refused "script number wider than 8 bytes")
  else
    let v := orBytes 0 0 bytes
    let msb := bytes.getLast?.getD 0
    if msb &&& 0x80 ≠ 0 then
      let signBit : UInt64 := 0x80 <<< UInt64.ofNat (8 * (bytes.length - 1))
      orPanic (toI64 (-(v &&& ~~~signBit).toBitVec.toInt))
    else orRefuse (toI64 v.toNat) "script number out of i64 range"

/-! ## The build -/

/-- The plan of an entrypoint whose outputs are constrained. -/
def constrainedPlan (template entrypoint : String) :
    Except Halt (ConstrainedKind × I64 × Option String) :=
  match entrypointSpec template entrypoint with
  | .error msg => .error (.refused msg)
  | .ok (.pureSig _ _ _) =>
      .error (.refused (s!"{template} . {entrypoint} is a pure-signature entrypoint — " ++
        "`spend` handles it directly"))
  | .ok (.constrained kind selector signerField) => .ok (kind, selector, signerField)

/-- The closure `field`. -/
def fieldOf (template : String) (fields : List Field) (n : String) : Except Halt Bytes :=
  orRefuse (fieldNamed fields n) s!"{template} has no {n} field"

/-- The signature gate, when the entrypoint demands one. -/
def signatureGate (crates : LabCrates) (keypair : Keypair) (template entrypoint : String)
    (fields : List Field) : Option String → Except Halt Unit
  | none => .ok ()
  | some sf => do
      let committed ← fieldOf template fields sf
      let key := (crates.blake2b32 keypair.xonly.val).val
      if committed ≠ key then
        let committedHex := String.ofList (toHex committed)
        let keyHex := String.ofList (toHex key)
        .error (.refused (s!"this coin's {sf} is {committedHex}, but your key's blake2b is " ++
          s!"{keyHex} — you can't {entrypoint} it"))
      else .ok ()

/-- The checks of the state coin. -/
def stateGate (crates : LabCrates) (program : Bytes) (state : SpendableUtxo) :
    Except Halt Unit :=
  let stateValue := state.entry.amount
  if state.entry.scriptPublicKey ≠ crates.payToScriptHashScript program then
    .error (.refused "the state UTXO's scriptPubKey isn't this program's P2SH commitment")
  else if stateValue ≤ 1000 then
    .error (.refused
      s!"coin holds {stateValue} sompi — not even the contract's own 1000-sompi fee")
  else .ok ()

/-- `fee`, of a compute budget. -/
def networkFee (computeBudget : UInt16) : Except Halt UInt64 := do
  let both ← mulU64 2 computeBudget.toUInt64
  let grams ← mulU64 both 100
  let mass ← addU64 grams 5000
  let price ← mulU64 100 mass
  addU64 price 200000

/-- The value of the change output, if the funding coin is large enough. -/
def changeValue (funding : SpendableUtxo) (fee : UInt64) : Except Halt UInt64 := do
  let amount := funding.entry.amount
  let floor ← addU64 fee 100000
  if amount ≤ floor then
    .error (.refused (s!"fee UTXO holds {amount} sompi — need more than {floor} " ++
      "(network fee + dust floor)"))
  else
    let topped ← addU64 amount 1000
    subU64 topped fee

/-- The sequence of input 0, and the outputs that the contract dictates. -/
def dictated (crates : LabCrates) (template : String) (fields : List Field)
    (state : SpendableUtxo) : ConstrainedKind → Except Halt (UInt64 × List TransactionOutput)
  | .mecenasReceive => do
      let recipient ← fieldOf template fields "recipient"
      let pledge ← snumToI64 (← fieldOf template fields "pledge")
      let period ← snumToI64 (← fieldOf template fields "period")
      if pledge.val ≤ 0 ∨ period.val < 0 then
        let p := pledge.val
        let q := period.val
        .error (.refused s!"nonsensical pledge ({p}) / period ({q})")
      else
        let recipientAddr ← addressNew recipient
        let recipientSpk := crates.payToPubKeyScript recipientAddr
        -- an `i128` from here on
        let rest ← orPanic (Checked.sub 127 state.entry.amount.toNat pledge.val)
        let change ← orPanic (Checked.sub 127 rest 1000)
        let limit ← orPanic (Checked.add 127 pledge.val 1000)
        if change ≤ limit then
          let value ← subU64 state.entry.amount 1000
          pure (asU64 period.val, [⟨value, recipientSpk, none⟩])
        else
          pure (asU64 period.val,
            [⟨asU64 pledge.val, recipientSpk, none⟩,
              ⟨asU64 change, state.entry.scriptPublicKey,
                state.entry.covenantId.map (⟨0, ·⟩)⟩])
  | .lastWillRefresh => do
      let value ← subU64 state.entry.amount 1000
      pure (0, [⟨value, state.entry.scriptPublicKey, state.entry.covenantId.map (⟨0, ·⟩)⟩])

/-- The spend before its scripts are set. -/
def unsignedMtx (state funding : SpendableUtxo) (computeBudget : UInt16) (sequence0 : UInt64)
    (outputs : List TransactionOutput) : MutableTransaction where
  tx :=
    { version := 1
      inputs :=
        [⟨state.outpoint, [], sequence0, .computeBudget computeBudget⟩,
          ⟨funding.outpoint, [], 0, .computeBudget computeBudget⟩]
      outputs
      lockTime := 0
      subnetworkId := nativeSubnetwork
      gas := 0
      payload := [] }
  entries := [state.entry, funding.entry]

/-- The signature of an input, as an argument of its script. -/
def signatureArg (crates : LabCrates) (keypair : Keypair) (mtx : MutableTransaction)
    (index : Nat) : Bytes :=
  (keypair.signSchnorr (crates.schnorrSignatureHash mtx index)).val ++ [SIG_HASH_ALL]

/-- The witness of input 0. -/
def revealWitness (crates : LabCrates) (keypair : Keypair) (mtx : MutableTransaction)
    (signerField : Option String) (selector : I64) (program : Bytes) : Bytes :=
  (if signerField.isSome then
      encodePush keypair.xonly.val ++ encodePush (signatureArg crates keypair mtx 0)
    else []) ++ encodePush (snum selector) ++ encodePush program

/-- `mtx.tx.inputs[index].signature_script = script`. -/
def setScriptAt (mtx : MutableTransaction) (index : Nat) (script : Bytes) : MutableTransaction :=
  { mtx with tx :=
    { mtx.tx with inputs := mtx.tx.inputs.modify index fun input ↦
        { input with signatureScript := script } } }

/-- The spend with both scripts set. -/
def signedMtx (crates : LabCrates) (keypair : Keypair) (mtx : MutableTransaction)
    (signerField : Option String) (selector : I64) (program : Bytes) : MutableTransaction :=
  let mtx := setScriptAt mtx 0 (revealWitness crates keypair mtx signerField selector program)
  setScriptAt mtx 1 (encodePush (signatureArg crates keypair mtx 1))

/-- `build_constrained_spend`. -/
def buildConstrainedSpend (crates : LabCrates) (keypair : Keypair) (program : Bytes)
    (entrypoint : String) (state funding : SpendableUtxo) (computeBudget : UInt16) :
    Except Halt MutableTransaction := do
  let decoded := (defaultRegistry crates.fixture).decode 0 program
  let template ← orRefuse decoded.template "not a recognized contract"
  let (kind, selector, signerField) ← constrainedPlan template entrypoint
  signatureGate crates keypair template entrypoint decoded.fields signerField
  stateGate crates program state
  let fee ← networkFee computeBudget
  let changeValue ← changeValue funding fee
  let change : TransactionOutput := ⟨changeValue, crates.payToPubKeyScript keypair.xonly.val, none⟩
  let (sequence0, outputs) ← dictated crates template decoded.fields state kind
  pure (signedMtx crates keypair
    (unsignedMtx state funding computeBudget sequence0 (outputs ++ [change]))
    signerField selector program)

end Kascov.Labkit
