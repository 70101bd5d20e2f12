import Kascov.Lib.Json

/-!
# Signing with the wallet

`wallet.js`: the page hands the wallet its transaction and a list of funding inputs, and
compares what comes back with what it sent.  Values are plain data.  A number is its
decimal text, which tells two numbers apart as `===` does.
-/

namespace Kascov

/-- A number, by the text that `String` gives for it. -/
structure JsNumber where
  text : String
  short : text.length ≤ 25
deriving DecidableEq

abbrev JsValue := Json JsNumber

/-- A value that the parser gives or the wallet hands over. -/
abbrev PlainData := {v : JsValue // v.distinct = true}

/-! ## Comparing -/

mutual

/-- `deepEqual`. -/
def deepEqual : JsValue → JsValue → Bool
  | .null, .null => true
  | .bool a, .bool b => a == b
  | .num a, .num b => a == b
  | .str a, .str b => a == b
  | .arr a, .arr b => a.length == b.length && deepEqualItems a b
  | .obj a, .obj b => a.length == b.length && deepEqualFields a b
  | _, _ => false

def deepEqualItems : List JsValue → List JsValue → Bool
  | x :: xs, y :: ys => deepEqual x y && deepEqualItems xs ys
  | _, _ => true

def deepEqualFields : List (String × JsValue) → List (String × JsValue) → Bool
  | [], _ => true
  | (k, x) :: xs, b =>
      (match b.lookup k with
        | some y => deepEqual x y
        | none => false) && deepEqualFields xs b

end

/-- `Object.keys` with the values: the fields of an object, the items of an array, the
letters of a text.  It throws on `null`. -/
def ownFields : JsValue → Except String (List (String × JsValue))
  | .null => throw "Cannot convert undefined or null to object"
  | .obj fields => pure fields
  | .arr items => pure (items.zipIdx.map fun x ↦ (toString x.2, x.1))
  | .str s => pure (s.toList.zipIdx.map fun c ↦ (toString c.2, .str (String.singleton c.1)))
  | _ => pure []

/-- `without`.  An assignment to `__proto__` sets no field of the new object. -/
def without (obj : JsValue) (key : String) : Except String JsValue := do
  let fields ← ownFields obj
  pure (.obj (fields.filter fun f ↦ f.1 ≠ key ∧ f.1 ≠ "__proto__"))

mutual

/-- `String(v)`. -/
def jsString : JsValue → String
  | .null => "null"
  | .bool b => if b then "true" else "false"
  | .num n => n.text
  | .str s => s
  | .arr items => String.intercalate "," (jsStringItems items)
  | .obj _ => "[object Object]"

/-- The items as `join` writes them: nothing for `null`. -/
def jsStringItems : List JsValue → List String
  | [] => []
  | .null :: xs => "" :: jsStringItems xs
  | x :: xs => jsString x :: jsStringItems xs

end

/-- A value that `||` passes over. -/
def falsy : JsValue → Bool
  | .null => true
  | .bool b => !b
  | .num n => n.text == "0" || n.text == "NaN"
  | .str s => s == ""
  | _ => false

/-- `a.signatureScript || ''` as a text.  It throws on `null`. -/
def signatureText : JsValue → Except String String
  | .null => throw "Cannot read properties of null (reading 'signatureScript')"
  | a =>
      match a.get "signatureScript" with
      | some v => pure (if falsy v then "" else jsString v)
      | none => pure ""

/-- `FUNDING_SIG_RE`: a push of 65 bytes in lower case. -/
def fundingSigRe (sig : String) : Bool :=
  match sig.toList with
  | '4' :: '1' :: digits =>
      digits.length == 130 &&
        digits.all fun c ↦ ('0' ≤ c && c ≤ '9') || ('a' ≤ c && c ≤ 'f')
  | _ => false

/-- The turn of `assertIntentPreserved` at input `i`. -/
def assertInput (fundingIndexes : List Int) (i : Nat) (b a : JsValue) : Except String Unit :=
  if (i : Int) ∈ fundingIndexes then do
    let sig ← signatureText a
    if fundingSigRe sig.toLower then
      let b' ← without b "signatureScript"
      let a' ← without a "signatureScript"
      if deepEqual b' a' then pure ()
      else throw s!"funding input {i} changed more than its signatureScript"
    else throw s!"funding input {i} did not get a single Schnorr/SIGHASH_ALL signature"
  else if deepEqual b a then pure ()
  else throw (s!"wallet mutated non-funding input {i} " ++
    "(a covenant input must be left intact)")

/-- The loop of `assertIntentPreserved`, from input `i` on. -/
def assertInputs (fundingIndexes : List Int) :
    Nat → List JsValue → List JsValue → Except String Unit
  | i, b :: bs, a :: as => do
      assertInput fundingIndexes i b a
      assertInputs fundingIndexes (i + 1) bs as
  | _, _, _ => pure ()

/-- `v.inputs`, where it is an array. -/
def inputItems (v : JsValue) : Option (List JsValue) := (v.get "inputs").bind Json.items?

/-- `assertIntentPreserved`. -/
def assertIntentPreserved (before after : JsValue) (fundingIndexes : List Int) :
    Except String Unit :=
  match inputItems before, inputItems after with
  | some bs, some as =>
      if bs.length ≠ as.length then
        throw s!"wallet changed the input count ({bs.length} -> {as.length})"
      else do
        let b ← without before "inputs"
        let a ← without after "inputs"
        if deepEqual b a then assertInputs fundingIndexes 0 bs as
        else throw "wallet changed the outputs or a transaction-level field"
  | _, _ => throw "cannot verify signing: transaction has no inputs array"

/-! ## What the wallet answers -/

/-- The blanks that `trim` takes off the ends of a text. -/
def jsBlank (c : Char) : Bool :=
  c.toNat ∈ [0x09, 0x0a, 0x0b, 0x0c, 0x0d, 0x20, 0xa0, 0x1680, 0x2028, 0x2029, 0x202f, 0x205f,
    0x3000, 0xfeff] || (0x2000 ≤ c.toNat && c.toNat ≤ 0x200a)

/-- `trim`. -/
def jsTrim (s : String) : String :=
  String.ofList (((s.toList.dropWhile jsBlank).reverse.dropWhile jsBlank).reverse)

/-- The transaction in the parsed answer: the answer itself or what it wraps. -/
def unwrapTx (obj : JsValue) : Except String JsValue :=
  if (inputItems obj).isSome then pure obj
  else
    match (["transaction", "tx", "signedTx"].filterMap obj.get).find?
      fun v ↦ (inputItems v).isSome with
    | some v => pure v
    | none => throw "signPskt returned an object without an inputs array"

/-- `coerceSignedTx`, of an answer that is not `undefined`. -/
def coerceSignedTx (parse : String → Option PlainData) : JsValue → Except String JsValue
  | .null => throw "signPskt returned nothing"
  | .str returned =>
      if (jsTrim returned).toList.head? ≠ some '\x7b' then
        throw ("signPskt returned a non-JSON string; the trade page needs the signed " ++
          "transaction as JSON to verify the wallet touched only the funding inputs")
      else
        match parse (jsTrim returned) with
        | some obj => unwrapTx obj
        | none => throw "JSON.parse"
  | obj => unwrapTx obj

/-- An entry of `signInputs`. -/
structure SignInput where
  index : Int
  sighashType : Nat
deriving DecidableEq

/-- `signFunding`, over the parser, the serialiser and what the wallet answers to a
request. -/
def signFunding (parse : String → Option PlainData) (stringify : JsValue → String)
    (signPskt : String → List SignInput → Except String PlainData) (txJsonString : String)
    (fundingIndexes : List Int) : Except String String := do
  if fundingIndexes.isEmpty then
    throw "signFunding needs at least one funding input index to sign"
  match parse txJsonString with
  | none => throw "JSON.parse"
  | some before =>
      let returned ← signPskt txJsonString (fundingIndexes.map fun index ↦ ⟨index, 1⟩)
      let after ← coerceSignedTx parse returned
      assertIntentPreserved before after fundingIndexes
      match returned.val with
      | .str text => pure text
      | _ => pure (stringify after)

end Kascov
