import Mathlib.Data.Nat.Digits.Lemmas
import Mathlib.Tactic.Ring

/-!
# Little-endian bytes

The number that bytes spell, least significant first, and the two ways to spell a
number: in as many bytes as it needs, or in a given width.
-/

namespace LittleEndian

/-- The number that bytes spell. -/
def value (bytes : List UInt8) : Nat := bytes.foldr (fun b n ↦ b.toNat + 2 ^ 8 * n) 0

/-- The bytes of a number, with no zero at the end. -/
def digits (n : Nat) : List UInt8 := (Nat.digits 256 n).map UInt8.ofNat

/-- The low bytes of a number, in a given width. -/
def fixed : Nat → Nat → List UInt8
  | 0, _ => []
  | width + 1, n => UInt8.ofNat n :: fixed width (n / 2 ^ 8)

@[simp] theorem value_nil : value [] = 0 := rfl

@[simp] theorem value_cons (b : UInt8) (bytes : List UInt8) :
    value (b :: bytes) = b.toNat + 2 ^ 8 * value bytes := rfl

theorem value_append (a b : List UInt8) :
    value (a ++ b) = value a + 256 ^ a.length * value b := by
  induction a with
  | nil => simp
  | cons x a ih =>
      rw [List.cons_append, value_cons, ih, value_cons, List.length_cons, pow_succ]
      ring

theorem value_lt (bytes : List UInt8) : value bytes < 256 ^ bytes.length := by
  induction bytes with
  | nil => decide
  | cons b bytes ih =>
      have hb := b.toNat_lt
      rw [value_cons, List.length_cons, pow_succ]
      omega

theorem value_eq_ofDigits (bytes : List UInt8) :
    value bytes = Nat.ofDigits 256 (bytes.map UInt8.toNat) := by
  induction bytes with
  | nil => rfl
  | cons b bytes ih =>
      rw [value_cons, ih, List.map_cons, Nat.ofDigits_cons]
      norm_num

theorem toNat_digits (n : Nat) : (digits n).map UInt8.toNat = Nat.digits 256 n := by
  rw [digits, List.map_map]
  refine (List.map_congr_left fun d hd ↦ ?_).trans (List.map_id _)
  exact UInt8.toNat_ofNat_of_lt (Nat.digits_lt_base (by decide) hd)

theorem value_digits (n : Nat) : value (digits n) = n := by
  rw [value_eq_ofDigits, toNat_digits, Nat.ofDigits_digits]

/-- Bytes that end in no zero are the digits of what they spell. -/
theorem digits_value {bytes : List UInt8} (h : ∀ hne : bytes ≠ [], bytes.getLast hne ≠ 0) :
    digits (value bytes) = bytes := by
  have hdigits : Nat.digits 256 (value bytes) = bytes.map UInt8.toNat := by
    rw [value_eq_ofDigits]
    refine Nat.digits_ofDigits 256 (by decide) _ ?_ ?_
    · rintro _ hd
      obtain ⟨b, -, rfl⟩ := List.mem_map.mp hd
      exact b.toNat_lt
    · intro hne
      rw [List.getLast_map]
      intro hzero
      exact h (by simpa using hne) (UInt8.toNat_inj.mp hzero)
  rw [digits, hdigits, List.map_map]
  exact (List.map_congr_left fun b _ ↦ UInt8.ofNat_toNat).trans (List.map_id _)

theorem digits_getLast_ne_zero {n : Nat} (hne : digits n ≠ []) : (digits n).getLast hne ≠ 0 := by
  intro hzero
  have hn : n ≠ 0 := by
    rintro rfl
    exact hne (by simp [digits])
  have hnat := Nat.getLast_digit_ne_zero 256 hn
  simp only [← toNat_digits, List.getLast_map] at hnat
  exact hnat (congrArg UInt8.toNat hzero)

theorem digits_eq_nil_iff {n : Nat} : digits n = [] ↔ n = 0 := by
  simp [digits, Nat.digits_eq_nil_iff_eq_zero]

@[simp] theorem length_fixed (width n : Nat) : (fixed width n).length = width := by
  induction width generalizing n with
  | zero => rfl
  | succ width ih => rw [fixed, List.length_cons, ih]

theorem value_fixed {width n : Nat} (h : n < 256 ^ width) : value (fixed width n) = n := by
  induction width generalizing n with
  | zero =>
      rw [pow_zero, Nat.lt_one_iff] at h
      rw [h]
      rfl
  | succ width ih =>
      rw [pow_succ] at h
      rw [fixed, value_cons, ih (by omega), UInt8.toNat_ofNat']
      omega

theorem fixed_value (bytes : List UInt8) : fixed bytes.length (value bytes) = bytes := by
  induction bytes with
  | nil => rfl
  | cons b bytes ih =>
      have hlow : UInt8.ofNat (b.toNat + 2 ^ 8 * value bytes) = b := by
        refine UInt8.toNat_inj.mp ?_
        have hb := b.toNat_lt
        rw [UInt8.toNat_ofNat']
        omega
      have hhigh : (b.toNat + 2 ^ 8 * value bytes) / 2 ^ 8 = value bytes := by
        have hb := b.toNat_lt
        omega
      rw [value_cons, List.length_cons, fixed, hlow, hhigh, ih]

end LittleEndian
