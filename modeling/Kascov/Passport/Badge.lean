import Kascov.Lib.PairedMerkle
import Kascov.Passport.Canonical

/-!
# Passport files and their verifiers

The bot publishes every claim with its path to a root; `verifyProof` of the bot,
`verifyBadge` of the JS client and `verify_badge` of the Python client walk a path back.
Digests are texts of 64 hex digits, and a pair is hashed in the order of these texts.
-/

namespace Kascov

open PairedMerkle (walk nodeHash walkInputs rootInputs PairInput)

/-! ## Digests -/

def isHexUnit (u : CodeUnit) : Bool := (48 ≤ u.val && u.val < 58) || (97 ≤ u.val && u.val < 103)

/-- `/^[0-9a-f]{64}$/`, `isHex64` of the bot, `HEX64` and `_HEX64` of the clients. -/
def isHex64 (s : JsString) : Bool := s.length = 64 && s.all isHexUnit

/-- A digest, in hex. -/
abbrev Hex64 := {s : JsString // isHex64 s = true}

def nibble (u : CodeUnit) : Nat := if u.val < 58 then u.val - 48 else u.val - 87

/-- The bytes of hex text: `Buffer.from(…, 'hex')`, `hexToBytes`, `bytes.fromhex`. -/
def unhex : JsString → Bytes
  | high :: low :: rest => UInt8.ofNat (16 * nibble high + nibble low) :: unhex rest
  | _ => []

/-- `toLowerCase()` and `lower()`, for what the digests are tested for: no letter but these
has a hex digit as its lower case. -/
def lower (s : JsString) : JsString :=
  s.map fun u ↦ if 65 ≤ u.val ∧ u.val < 91 then Fin.ofNat 65536 (u.val + 32) else u

/-- What the bot and the Python client hash for a pair. -/
def pairBytes (a b : Hex64) : Bytes :=
  let (lo, hi) := if a.val ≤ b.val then (a, b) else (b, a)
  unhex lo.val ++ unhex hi.val

/-- What the JS client hashes for a pair. -/
def joinedBytes (cur sib : Hex64) : Bytes :=
  let (lo, hi) := if cur.val ≤ sib.val then (cur, sib) else (sib, cur)
  unhex (lo.val ++ hi.val)

section Programs

variable (sha256 : Bytes → Hex64)

/-! ## The bot -/

def claimLeaf (claim : Claim) : Hex64 := sha256 (botBytes claim)

def pairHash (a b : Hex64) : Hex64 := nodeHash sha256 pairBytes a b

/-- `merkleRoot`. -/
def merkleRoot (leaves : List Hex64) : Option Hex64 := PairedMerkle.root (pairHash sha256) leaves

/-- `merkleProof`, of an index within the list. -/
def merkleProof (leaves : List Hex64) (index : Nat) : List Hex64 :=
  PairedMerkle.proof (pairHash sha256) leaves index

/-- What `sort` compares: the units of the canonical text. -/
def textUnits (claim : Claim) : List Nat := (canonicalClaim claim).flatMap utf16

/-- `sort` by the canonical texts; claims of one text stay in the order they came. -/
def sortClaims (claims : List Claim) : List Claim :=
  claims.insertionSort fun a b ↦ textUnits a ≤ textUnits b

/-- What the file says about its claims. -/
structure PassportFile where
  merkleRoot : Option Hex64
  claims : List (Claim × List Hex64)

/-- `buildPassportFile`. -/
def buildPassportFile (claims : List Claim) : PassportFile :=
  let sorted := sortClaims claims
  let leaves := sorted.map (claimLeaf sha256)
  { merkleRoot := merkleRoot sha256 leaves
    claims := sorted.zipIdx.map fun entry ↦ (entry.1, merkleProof sha256 leaves entry.2) }

/-- A path, as the file carries it. -/
def proofValue (proof : List Hex64) : Claim := .arr (proof.map fun step ↦ .str step.val)

/-- The root, as the file carries it. -/
def rootValue : Option Hex64 → Claim
  | some root => .str root.val
  | none => .null

/-! ## The verifiers -/

/-- The loop over the steps: one that is no digest ends it. -/
def walkSteps (normal : JsString → JsString) (node : Hex64 → Hex64 → Hex64) :
    Hex64 → List Claim → Option Hex64
  | h, [] => some h
  | h, .str step :: steps =>
      if hstep : isHex64 (normal step) = true then
        walkSteps normal node (node h ⟨normal step, hstep⟩) steps
      else none
  | _, _ :: _ => none

/-- A value that is true in a JS condition. -/
def truthy : Claim → Bool
  | .null => false
  | .bool b => b
  | .num n => n.value ≠ 0
  | .str s => s ≠ []
  | _ => true

/-- `verifyProof`. -/
def verifyProof (claim proof root : Claim) : Bool :=
  if !truthy root then false
  else
    match proof with
    | .arr steps =>
        match walkSteps id (pairHash sha256) (claimLeaf sha256 claim) steps, root with
        | some h, .str root => h.val = root
        | _, _ => false
    | _ => false

/-- `verifyBadge`. -/
def verifyBadge (claim proof root : Claim) : Bool :=
  match proof, root with
  | .arr steps, .str root =>
      if isHex64 (lower root) then
        match walkSteps lower (nodeHash sha256 joinedBytes) (sha256 (jsBytes claim)) steps with
        | some cur => cur.val = lower root
        | none => false
      else false
  | _, _ => false

/-- `verify_badge`, which raises where the text cannot be encoded. -/
def verifyBadgePy (claim proof root : Claim) : Option Bool :=
  match proof, root with
  | .arr steps, .str root =>
      if isHex64 (lower root) then
        (pyBytes claim).map fun bytes ↦
          match walkSteps lower (nodeHash sha256 pairBytes) (sha256 bytes) steps with
          | some cur => cur.val = lower root
          | none => false
      else some false
  | _, _ => some false

/-- The three programs that check a path. -/
inductive Verifier
  | bot
  | js
  | py

def Verifier.accepts : Verifier → Claim → Claim → Claim → Bool
  | .bot, claim, proof, root => verifyProof sha256 claim proof root
  | .js, claim, proof, root => verifyBadge sha256 claim proof root
  | .py, claim, proof, root => verifyBadgePy sha256 claim proof root = some true

/-- The bytes a program hashes for a claim. -/
def Verifier.form : Verifier → Claim → Option Bytes
  | .bot, claim => some (botBytes claim)
  | .js, claim => some (jsBytes claim)
  | .py, claim => pyBytes claim

def Verifier.normal : Verifier → JsString → JsString
  | .bot => id
  | _ => lower

/-- The digests a program reads in the steps of a path. -/
def hexSteps (normal : JsString → JsString) : List Claim → Option (List Hex64)
  | [] => some []
  | .str step :: steps =>
      if hstep : isHex64 (normal step) = true then
        (hexSteps normal steps).map (⟨normal step, hstep⟩ :: ·)
      else none
  | _ :: _ => none

/-- Everything a program hashes to check a path. -/
def Verifier.hashed (v : Verifier) (claim proof : Claim) : List Bytes :=
  match v.form claim, proof with
  | some bytes, .arr steps =>
      match hexSteps v.normal steps with
      | some digests => bytes :: walkInputs sha256 pairBytes (sha256 bytes) digests
      | none => [bytes]
  | _, _ => []

end Programs

end Kascov
