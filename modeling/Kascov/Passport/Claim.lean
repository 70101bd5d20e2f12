import Kascov.Lib.KeySort
import Kascov.Passport.Number
import Kascov.Web.Hex
import Mathlib.Data.List.Lex
import Mathlib.Order.Lex

/-!
# The canonical text of a passport claim

A claim is hashed as JSON text with the keys of every object sorted.  Three programs
write that text: the bot that publishes the claims, and the two clients that check
them.  A JS string is a list of 16-bit units, which need not pair up; Python reads the
same string as code points.
-/

namespace Kascov

open KeySort

/-! ## Strings -/

abbrev CodeUnit := Fin 65536

instance instNeZeroCodeUnits : NeZero 65536 := ⟨by decide⟩

abbrev JsString := List CodeUnit

def isHighSurrogate (u : Nat) : Bool := 0xD800 ≤ u && u < 0xDC00

def isLowSurrogate (u : Nat) : Bool := 0xDC00 ≤ u && u < 0xE000

def isSurrogate (p : Nat) : Bool := 0xD800 ≤ p && p < 0xE000

/-- The code points of a string: pairs are joined, a unit without a partner stays. -/
def codePoints : JsString → List Nat
  | high :: low :: rest =>
      if isHighSurrogate high && isLowSurrogate low then
        (0x10000 + (high.val - 0xD800) * 0x400 + (low.val - 0xDC00)) :: codePoints rest
      else high.val :: codePoints (low :: rest)
  | [u] => [u.val]
  | [] => []

/-- The units of a code point. -/
def utf16 (p : Nat) : List Nat :=
  if p < 0x10000 then [p]
  else [0xD800 + (p - 0x10000) / 0x400, 0xDC00 + (p - 0x10000) % 0x400]

/-- The units of a text without unpaired surrogates. -/
def jsUnits (text : Text) : JsString :=
  text.flatMap fun c ↦ (utf16 c.toNat).map (Fin.ofNat 65536)

/-! ## Values -/

/-- A JSON value without fractions, the fields of an object in the order they stand. -/
inductive Claim where
  | null
  | bool (b : Bool)
  | num (n : WholeNumber)
  | str (s : JsString)
  | arr (items : List Claim)
  | obj (fields : List (JsString × Claim))

/-- Induction on claims, over the items of an array and the fields of an object. -/
@[elab_as_elim] theorem Claim.ind {P : Claim → Prop} (null : P null) (bool : ∀ b, P (bool b))
    (num : ∀ n, P (num n)) (str : ∀ s, P (str s))
    (arr : ∀ items, (∀ x ∈ items, P x) → P (arr items))
    (obj : ∀ fields, (∀ f ∈ fields, P f.2) → P (obj fields)) (c : Claim) : P c :=
  @Claim.rec P (fun items ↦ ∀ x ∈ items, P x) (fun fields ↦ ∀ f ∈ fields, P f.2)
    (fun f ↦ P f.2) null bool num str arr obj (by simp)
    (fun _ _ hx hxs ↦ List.forall_mem_cons.mpr ⟨hx, hxs⟩) (by simp)
    (fun _ _ hf hfs ↦ List.forall_mem_cons.mpr ⟨hf, hfs⟩) (fun _ _ h ↦ h) c

/-! ## Text -/

/-- The escapes of one letter. -/
def shortEscape : Nat → Option Nat
  | 8 => some 98
  | 9 => some 116
  | 10 => some 110
  | 12 => some 102
  | 13 => some 114
  | 34 => some 34
  | 92 => some 92
  | _ => none

def unicodeEscape (p : Nat) : List Nat :=
  [92, 117] ++ [p / 4096 % 16, p / 256 % 16, p / 16 % 16, p % 16].map fun n ↦ (hexDigit n).toNat

/-- A code point in a string of `json.dumps`, with `ensure_ascii=False`. -/
def pyEscape (p : Nat) : List Nat :=
  match shortEscape p with
  | some letter => [92, letter]
  | none => if p < 32 then unicodeEscape p else [p]

/-- A code point in a string of `JSON.stringify`, which keeps its text well formed. -/
def jsEscape (p : Nat) : List Nat :=
  if isSurrogate p then unicodeEscape p else pyEscape p

/-- How a program writes JSON without white space: its numbers, its escapes, and the
order of the fields of an object, already written. -/
structure JsonStyle where
  number : WholeNumber → List Nat
  escape : Nat → List Nat
  order : List (JsString × List Nat) → List (JsString × List Nat)

/-- A string between its quotes. -/
def JsonStyle.quote (style : JsonStyle) (s : JsString) : List Nat :=
  34 :: ((codePoints s).flatMap style.escape ++ [34])

/-- A field, as it is written. -/
def JsonStyle.field (style : JsonStyle) (f : JsString × List Nat) : List Nat :=
  style.quote f.1 ++ 58 :: f.2

mutual

/-- The text of a value, as code points. -/
def JsonStyle.text (style : JsonStyle) : Claim → List Nat
  | .null => [110, 117, 108, 108]
  | .bool true => [116, 114, 117, 101]
  | .bool false => [102, 97, 108, 115, 101]
  | .num n => style.number n
  | .str s => style.quote s
  | .arr items => 91 :: (List.intercalate [44] (style.items items) ++ [93])
  | .obj fields =>
      123 :: (List.intercalate [44] ((style.order (style.fields fields)).map style.field) ++ [125])

def JsonStyle.items (style : JsonStyle) : List Claim → List (List Nat)
  | [] => []
  | c :: items => style.text c :: style.items items

def JsonStyle.fields (style : JsonStyle) :
    List (JsString × Claim) → List (JsString × List Nat)
  | [] => []
  | (k, c) :: fields => (k, style.text c) :: style.fields fields

end

/-! ## Key orders -/

/-- The order of `sort()`, by units. -/
def unitsLe (a b : JsString) : Bool := a ≤ b

/-- The order of Python's strings, by code points. -/
def pointsLe (a b : JsString) : Bool := codePoints a ≤ codePoints b

/-- The number an all-digit key spells. -/
def keyNumber (k : JsString) : Nat := k.foldl (fun n u ↦ 10 * n + (u.val - 48)) 0

/-- The keys a JS object lists first: an array index, spelled the canonical way. -/
def arrayIndex (k : JsString) : Option Nat :=
  if keyNumber k < 2 ^ 32 - 1 ∧ decimal (keyNumber k) = k.map Fin.val then some (keyNumber k)
  else none

/-- The own fields of an object built by `Object.fromEntries`, of distinct keys: indices
upwards, then the other keys as they came. -/
def fromEntries {α : Type} (entries : List (JsString × α)) : List (JsString × α) :=
  ((entries.filter fun f ↦ (arrayIndex f.1).isSome).insertionSort fun f g ↦
      (arrayIndex f.1).getD 0 ≤ (arrayIndex g.1).getD 0) ++
    entries.filter fun f ↦ (arrayIndex f.1).isNone

/-! ## The three canonical forms -/

mutual

/-- `sorted` of `canonicalClaim`. -/
def sortedClaim : Claim → Claim
  | .arr items => .arr (sortedItems items)
  | .obj fields => .obj (fromEntries (sortKeys unitsLe (sortedFields fields)))
  | c => c

def sortedItems : List Claim → List Claim
  | [] => []
  | c :: items => sortedClaim c :: sortedItems items

def sortedFields : List (JsString × Claim) → List (JsString × Claim)
  | [] => []
  | (k, c) :: fields => (k, sortedClaim c) :: sortedFields fields

end

/-- A number of a JS program. -/
def jsNumeral (n : WholeNumber) : List Nat := jsNumber n.value

/-- `JSON.stringify`. -/
def stringify : JsonStyle := ⟨jsNumeral, jsEscape, id⟩

/-- `canonicalClaim` of the bot. -/
def canonicalClaim (claim : Claim) : List Nat := stringify.text (sortedClaim claim)

def canonicalStyle : JsonStyle := ⟨jsNumeral, jsEscape, sortKeys unitsLe⟩

/-- `canonicalJson` of the JS client. -/
def canonicalJson (value : Claim) : List Nat := canonicalStyle.text value

def dumpsStyle : JsonStyle := ⟨pyNumber, pyEscape, sortKeys pointsLe⟩

/-- `canonical_json` of the Python client. -/
def canonicalDumps (value : Claim) : List Nat := dumpsStyle.text value

/-- UTF-8. -/
def utf8 (text : Text) : Bytes := text.flatMap String.utf8EncodeChar

/-- The bytes of a JS string: an unpaired surrogate is replaced. -/
def encodeJs (text : List Nat) : Bytes :=
  utf8 (text.map fun p ↦ if isSurrogate p then Char.ofNat 0xFFFD else Char.ofNat p)

/-- A code point that is no surrogate. -/
def scalar (p : Nat) : Bool := p < 0x110000 && !isSurrogate p

/-- `.encode("utf-8")`, which raises at a surrogate. -/
def encodePy (text : List Nat) : Option Bytes :=
  if text.all scalar then some (utf8 (text.map Char.ofNat)) else none

/-- The bytes the bot hashes. -/
def botBytes (claim : Claim) : Bytes := encodeJs (canonicalClaim claim)

/-- The bytes the JS client hashes. -/
def jsBytes (claim : Claim) : Bytes := encodeJs (canonicalJson claim)

/-- The bytes the Python client hashes. -/
def pyBytes (claim : Claim) : Option Bytes := encodePy (canonicalDumps claim)

/-! ## What is published -/

/-- The value that a number of the published text is read as. -/
def readNumber (text : List Nat) : Claim :=
  if text = [110, 117, 108, 108] then .null else .num (readNumeral text)

mutual

/-- A claim as it is read from the file that `JSON.stringify` wrote: the strings and the fields
come back as they were, the numbers as they were written. -/
def Claim.published : Claim → Claim
  | .num n => readNumber (jsNumeral n)
  | .arr items => .arr (publishedItems items)
  | .obj fields => .obj (publishedFields fields)
  | c => c

def publishedItems : List Claim → List Claim
  | [] => []
  | c :: items => c.published :: publishedItems items

def publishedFields : List (JsString × Claim) → List (JsString × Claim)
  | [] => []
  | (k, c) :: fields => (k, c.published) :: publishedFields fields

end

/-! ## Properties of every part of a claim -/

mutual

/-- A test of the strings and of the keys of every object of a claim. -/
def Claim.every (str : JsString → Bool) (keys : List JsString → Bool) : Claim → Bool
  | .str s => str s
  | .arr items => everyItem str keys items
  | .obj fields => keys (fields.map Prod.fst) && everyField str keys fields
  | _ => true

def everyItem (str : JsString → Bool) (keys : List JsString → Bool) : List Claim → Bool
  | [] => true
  | c :: items => c.every str keys && everyItem str keys items

def everyField (str : JsString → Bool) (keys : List JsString → Bool) :
    List (JsString × Claim) → Bool
  | [] => true
  | (_, c) :: fields => c.every str keys && everyField str keys fields

end

/-- No object has a key twice. -/
def Claim.distinct (claim : Claim) : Bool := claim.every (fun _ ↦ true) fun keys ↦ keys.Nodup

/-- No surrogate stands alone. -/
def paired (s : JsString) : Bool := !(codePoints s).any isSurrogate

/-- The order in which `Object.fromEntries` leaves sorted keys. -/
def ownLe (a b : JsString) : Bool :=
  match arrayIndex a, arrayIndex b with
  | some i, some j => i ≤ j
  | some _, none => true
  | none, some _ => false
  | none, none => unitsLe a b

/-- Every string is well formed, and the keys of every object come in one order by
units, by code points, and as a JS object lists them. -/
def Claim.portable (claim : Claim) : Bool :=
  claim.every paired fun keys ↦ keys.all paired &&
    (ordersAgree unitsLe ownLe keys && ordersAgree unitsLe pointsLe keys)

end Kascov
