import Kascov.Model.Types

/-!
# Hex text

How the pages write bytes as text and read them back.  The trade builder takes an even
number of digits of either case; the disassembler takes them with blanks and a marker.
-/

namespace Kascov

/-- A text, as its characters. -/
abbrev Text := List Char

/-- `toString(16)`, for a half of a byte. -/
def hexDigit (n : Nat) : Char := Char.ofNat (if n < 10 then 48 + n else 87 + n)

/-- The value of a digit, of either case. -/
def hexValue (c : Char) : Option Nat :=
  if '0' ≤ c ∧ c ≤ '9' then some (c.toNat - 48)
  else if 'a' ≤ c ∧ c ≤ 'f' then some (c.toNat - 87)
  else if 'A' ≤ c ∧ c ≤ 'F' then some (c.toNat - 55)
  else none

/-- `toHex`: two digits a byte. -/
def toHex (bytes : Bytes) : Text :=
  bytes.flatMap fun b ↦ [hexDigit (b.toNat / 16), hexDigit (b.toNat % 16)]

/-- `toBytes` of a string, and the loop of `parseHex`: every pair of digits is a byte. -/
def hexBytes : Text → Option Bytes
  | [] => some []
  | [_] => none
  | a :: b :: rest =>
      match hexValue a, hexValue b with
      | some high, some low => (hexBytes rest).map (UInt8.ofNat (16 * high + low) :: ·)
      | _, _ => none

theorem hexValue_hexDigit_fin : ∀ n : Fin 16, hexValue (hexDigit n) = some n.val := by
  decide +kernel

theorem hexValue_hexDigit {n : Nat} (h : n < 16) : hexValue (hexDigit n) = some n :=
  hexValue_hexDigit_fin ⟨n, h⟩

theorem length_toHex (bytes : Bytes) : (toHex bytes).length = 2 * bytes.length := by
  induction bytes with
  | nil => rfl
  | cons b bytes ih =>
      change (toHex bytes).length + 2 = _
      rw [ih, List.length_cons]
      omega

/-- What is written reads back. -/
theorem hexBytes_toHex (bytes : Bytes) : hexBytes (toHex bytes) = some bytes := by
  induction bytes with
  | nil => rfl
  | cons b bytes ih =>
      have hb := b.toNat_lt
      have hhalves : 16 * (b.toNat / 16) + b.toNat % 16 = b.toNat := Nat.div_add_mod _ _
      rw [toHex, List.flatMap_cons, List.cons_append, List.cons_append, List.nil_append, hexBytes,
        hexValue_hexDigit (by omega), hexValue_hexDigit (Nat.mod_lt _ (by decide))]
      dsimp only
      rw [← toHex, ih, hhalves, UInt8.ofNat_toNat]
      rfl

end Kascov
