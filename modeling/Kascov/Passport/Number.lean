import Mathlib.Algebra.Ring.Nat
import Mathlib.Data.List.TakeWhile
import Mathlib.Data.Nat.Log
import Mathlib.Tactic.Common

/-!
# The whole numbers of a claim

A JS program holds every number as a double and writes the shortest decimal that reads back
as it, with an exponent from `1e21` on.  Python reads a numeral with an exponent as a double
and any other digit for digit, and writes both as it holds them.
-/

namespace Kascov

/-! ## Numbers -/

/-- A whole number, as Python holds it.  To a JS program the two are one. -/
inductive WholeNumber where
  | int (n : Int)
  | float (n : Int)
deriving DecidableEq, Repr

def WholeNumber.value : WholeNumber → Int
  | int n => n
  | float n => n

def WholeNumber.neg : WholeNumber → WholeNumber
  | int n => int (-n)
  | float n => float (-n)

/-- The digits of a natural number, as code points. -/
def digitPoints (m : Nat) : List Nat := (Nat.toDigits 10 m).map Char.toNat

/-- The digits of an integer. -/
def decimal (n : Int) : List Nat := (if n < 0 then [45] else []) ++ digitPoints n.natAbs

/-- The nearest double of an integer, ties to even. -/
def nearestDouble (m : Nat) : Nat :=
  let e := m.log2 - 52
  let q := m / 2 ^ e
  let r := m % 2 ^ e
  if 2 ^ e < 2 * r ∨ (2 ^ e = 2 * r ∧ q % 2 = 1) then (q + 1) * 2 ^ e else q * 2 ^ e

/-- With `j` digits dropped, the decimals beside a double that read back as it, the
closest first. -/
def roundedDecimal (x j : Nat) : Option Nat :=
  let low := x / 10 ^ j * 10 ^ j
  let high := low + 10 ^ j
  let near := if 2 * (x - low) < 10 ^ j ∨ (2 * (x - low) = 10 ^ j ∧ x / 10 ^ j % 2 = 0) then
    [low, high] else [high, low]
  near.find? fun d ↦ nearestDouble d = x

/-- The shortest decimal that reads back as a double. -/
def shortestDecimal (x : Nat) : Nat :=
  ((List.range (Nat.toDigits 10 x).length).reverse.findSome? (roundedDecimal x)).getD x

/-! ## Numerals -/

/-- The digits of a decimal without the zeros at its end. -/
def significant (d : Nat) : List Nat := ((digitPoints d).reverse.dropWhile (· = 48)).reverse

/-- Digits with a point behind the first, if there are more. -/
def pointed : List Nat → List Nat
  | first :: second :: rest => first :: 46 :: second :: rest
  | digits => digits

/-- A decimal with its exponent. -/
def exponentDigits (d : Nat) : List Nat :=
  pointed (significant d) ++ [101, 43] ++ digitPoints ((digitPoints d).length - 1)

/-- `Number::toString` of a whole number, with an exponent from `1e21` on. -/
def numberDigits (d : Nat) : List Nat :=
  if d < 10 ^ 21 then digitPoints d else exponentDigits d

/-- An integer beyond the doubles. -/
@[irreducible] def overflows (n : Int) : Bool := 2 ^ 1024 ≤ nearestDouble n.natAbs

/-- `JSON.stringify` of an integer, which a JS program holds as a double. -/
def jsNumber (n : Int) : List Nat :=
  if overflows n then [110, 117, 108, 108]
  else (if n < 0 then [45] else []) ++ numberDigits (shortestDecimal (nearestDouble n.natAbs))

/-- `repr` of a float, with an exponent from `1e16` on. -/
def floatRepr (n : Int) : List Nat :=
  let d := shortestDecimal (nearestDouble n.natAbs)
  (if n < 0 then [45] else []) ++
    if overflows n then [73, 110, 102, 105, 110, 105, 116, 121]
    else if d < 10 ^ 16 then digitPoints d ++ [46, 48]
    else exponentDigits d

/-- `json.dumps` of a whole number. -/
def pyNumber : WholeNumber → List Nat
  | .int n => decimal n
  | .float n => floatRepr n

/-- The number that digits spell. -/
def spelled (digits : List Nat) : Nat := digits.foldl (fun n p ↦ 10 * n + (p - 48)) 0

/-- A numeral without a sign: with an exponent it is a double, without one an integer. -/
def readDigits (text : List Nat) : WholeNumber :=
  let mantissa := text.takeWhile (· ≠ 101)
  match text.dropWhile (· ≠ 101) with
  | _ :: _ :: exponent =>
      let places := (mantissa.dropWhile (· ≠ 46)).length - 1
      .float (nearestDouble
        (spelled (mantissa.filter (· ≠ 46)) * 10 ^ (spelled exponent - places)))
  | _ => .int (spelled mantissa)

/-- `json.loads` of a numeral that `JSON.stringify` wrote for a whole number. -/
def readNumeral : List Nat → WholeNumber
  | 45 :: digits => (readDigits digits).neg
  | digits => readDigits digits

/-! ## Doubles -/

/-- A double is its own nearest one. -/
theorem nearestDouble_mul {q e : Nat} (hlow : 2 ^ 52 ≤ q) (hhigh : q < 2 ^ 53) :
    nearestDouble (q * 2 ^ e) = q * 2 ^ e := by
  have hpos : 0 < 2 ^ e := Nat.two_pow_pos e
  have hne : q * 2 ^ e ≠ 0 := Nat.mul_ne_zero (by omega) hpos.ne'
  have hlog : (q * 2 ^ e).log2 = e + 52 := by
    rw [Nat.log2_eq_iff hne, Nat.pow_add, Nat.add_assoc, Nat.pow_add, Nat.mul_comm q]
    exact ⟨Nat.mul_le_mul_left _ hlow, Nat.mul_lt_mul_of_pos_left hhigh hpos⟩
  unfold nearestDouble
  dsimp only
  rw [hlog, Nat.add_sub_cancel, Nat.mul_mod_left, Nat.mul_div_cancel _ hpos, if_neg]
  omega

/-- A number below `2 ^ 53` is a double, and another is rounded to 53 bits. -/
theorem nearestDouble_cases (m : Nat) : nearestDouble m = m ∨
    ∃ q e, 2 ^ 52 ≤ q ∧ q < 2 ^ 53 ∧ nearestDouble m = q * 2 ^ e := by
  by_cases hsmall : m.log2 ≤ 52
  · refine .inl ?_
    unfold nearestDouble
    rw [Nat.sub_eq_zero_of_le hsmall]
    simp [Nat.mod_one]
  · obtain ⟨e, he⟩ := Nat.exists_eq_add_of_lt (Nat.lt_of_not_le hsmall)
    have hlog : m.log2 = e + 1 + 52 := by omega
    have hne : m ≠ 0 := by
      rintro rfl
      rw [Nat.log2_zero] at hlog
      omega
    obtain ⟨hlow, hhigh⟩ := (Nat.log2_eq_iff hne).mp hlog
    have hpos : 0 < 2 ^ (e + 1) := Nat.two_pow_pos _
    have hq : 2 ^ 52 ≤ m / 2 ^ (e + 1) ∧ m / 2 ^ (e + 1) < 2 ^ 53 := by
      rw [Nat.le_div_iff_mul_le hpos, Nat.div_lt_iff_lt_mul hpos, ← Nat.pow_add, ← Nat.pow_add]
      rw [show 52 + (e + 1) = e + 1 + 52 by omega, show 53 + (e + 1) = e + 1 + 52 + 1 by omega]
      exact ⟨hlow, hhigh⟩
    have hrounded : nearestDouble m = m / 2 ^ (e + 1) * 2 ^ (e + 1) ∨
        nearestDouble m = (m / 2 ^ (e + 1) + 1) * 2 ^ (e + 1) := by
      unfold nearestDouble
      dsimp only
      rw [hlog, Nat.add_sub_cancel]
      split
      · exact .inr rfl
      · exact .inl rfl
    rcases hrounded with hdown | hup
    · exact .inr ⟨_, _, hq.1, hq.2, hdown⟩
    · rcases Nat.lt_or_ge (m / 2 ^ (e + 1) + 1) (2 ^ 53) with hlt | hge
      · exact .inr ⟨_, _, Nat.le_succ_of_le hq.1, hlt, hup⟩
      · -- the mantissa is full, and the next double has one bit more
        refine .inr ⟨2 ^ 52, e + 2, Nat.le_refl _, by decide, hup.trans ?_⟩
        rw [show m / 2 ^ (e + 1) + 1 = 2 ^ 53 by omega, ← Nat.pow_add, ← Nat.pow_add]
        congr 1
        omega

/-- Rounding rounds once. -/
theorem nearestDouble_nearestDouble (m : Nat) :
    nearestDouble (nearestDouble m) = nearestDouble m := by
  rcases nearestDouble_cases m with hself | ⟨q, e, hlow, hhigh, heq⟩
  · rw [hself, hself]
  · rw [heq]
    exact nearestDouble_mul hlow hhigh

theorem nearestDouble_ne_zero {m : Nat} (hm : m ≠ 0) : nearestDouble m ≠ 0 := by
  rcases nearestDouble_cases m with hself | ⟨q, e, hlow, -, heq⟩
  · rwa [hself]
  · rw [heq]
    exact Nat.mul_ne_zero (by omega) (Nat.two_pow_pos e).ne'

/-- The shortest decimal of a double reads back as it. -/
theorem nearestDouble_shortestDecimal {x : Nat} (hx : nearestDouble x = x) :
    nearestDouble (shortestDecimal x) = x := by
  unfold shortestDecimal
  cases hfound : (List.range (Nat.toDigits 10 x).length).reverse.findSome? (roundedDecimal x) with
  | none => exact hx
  | some d =>
      obtain ⟨j, -, hj⟩ := List.exists_of_findSome?_eq_some hfound
      have hread := List.find?_some (p := fun d ↦ decide (nearestDouble d = x)) hj
      exact of_decide_eq_true hread

/-! ## Digits read back -/

theorem digitPoints_bounds {m p : Nat} (hp : p ∈ digitPoints m) : 48 ≤ p ∧ p ≤ 57 := by
  obtain ⟨c, hc, rfl⟩ := List.mem_map.mp hp
  have hdigit := Nat.isDigit_of_mem_toDigits (by decide) (by decide) hc
  simp only [Char.isDigit, Bool.and_eq_true, decide_eq_true_eq, UInt32.le_iff_toNat_le] at hdigit
  exact hdigit

/-- A digit is no other sign. -/
theorem digit_ne {p c : Nat} (hp : 48 ≤ p ∧ p ≤ 57) (hc : c < 48 ∨ 57 < c) : p ≠ c := by
  omega

theorem digitPoints_ne_nil (m : Nat) : digitPoints m ≠ [] := fun h ↦
  Nat.toDigits_ne_nil (List.map_eq_nil_iff.mp h)

theorem spelled_digitPoints (m : Nat) : spelled (digitPoints m) = m := by
  rw [spelled, digitPoints, List.foldl_map]
  exact Nat.ofDigitChars_eq_foldl.symm.trans Nat.ofDigitChars_ten_toDigits

theorem spelled_append_zeros (digits : List Nat) (k : Nat) :
    spelled (digits ++ List.replicate k 48) = spelled digits * 10 ^ k := by
  induction k with
  | zero => rw [List.replicate_zero, List.append_nil, Nat.pow_zero, Nat.mul_one]
  | succ k ih =>
      rw [List.replicate_succ', ← List.append_assoc, spelled, List.foldl_append, ← spelled, ih,
        Nat.pow_succ, ← Nat.mul_assoc]
      exact Nat.mul_comm 10 _

/-- A decimal is its significant digits and zeros. -/
theorem digitPoints_eq (d : Nat) : ∃ k, digitPoints d = significant d ++ List.replicate k 48 := by
  refine ⟨((digitPoints d).reverse.takeWhile (· = 48)).length, ?_⟩
  have hzeros : (digitPoints d).reverse.takeWhile (· = 48) =
      List.replicate ((digitPoints d).reverse.takeWhile (· = 48)).length 48 :=
    List.eq_replicate_of_mem fun p hp ↦ by simpa using List.mem_takeWhile_imp hp
  rw [significant, ← List.reverse_replicate, ← hzeros, ← List.reverse_append,
    List.takeWhile_append_dropWhile, List.reverse_reverse]

theorem significant_ne_nil {d : Nat} (hd : d ≠ 0) : significant d ≠ [] := by
  intro hnil
  obtain ⟨k, hk⟩ := digitPoints_eq d
  have hzero := spelled_digitPoints d
  rw [hk, hnil, spelled_append_zeros] at hzero
  exact hd (hzero.symm.trans (Nat.zero_mul _))

theorem significant_bounds {d p : Nat} (hp : p ∈ significant d) : 48 ≤ p ∧ p ≤ 57 := by
  obtain ⟨k, hk⟩ := digitPoints_eq d
  exact digitPoints_bounds (hk ▸ List.mem_append_left _ hp)

theorem readDigits_digitPoints (d : Nat) : readDigits (digitPoints d) = .int d := by
  have hdigits : ∀ p ∈ digitPoints d, decide (p ≠ 101) = true := fun p hp ↦
    decide_eq_true (digit_ne (digitPoints_bounds hp) (by decide))
  have hdrop : (digitPoints d).dropWhile (· ≠ 101) = [] :=
    List.dropWhile_eq_nil_iff.mpr fun p hp ↦ hdigits p hp
  have htake : (digitPoints d).takeWhile (· ≠ 101) = digitPoints d :=
    List.takeWhile_eq_self_iff.mpr hdigits
  rw [readDigits, hdrop, htake]
  exact congrArg (fun m : Nat ↦ WholeNumber.int m) (spelled_digitPoints d)

/-! ### Behind the point -/

theorem mem_pointed {digits : List Nat} {p : Nat} (hp : p ∈ pointed digits) :
    p = 46 ∨ p ∈ digits := by
  unfold pointed at hp
  split at hp
  · simp only [List.mem_cons] at hp ⊢
    tauto
  · exact .inr hp

theorem filter_pointed {digits : List Nat} (hdigits : ∀ p ∈ digits, p ≠ 46) :
    (pointed digits).filter (· ≠ 46) = digits := by
  have hself : digits.filter (· ≠ 46) = digits :=
    List.filter_eq_self.mpr fun p hp ↦ decide_eq_true (hdigits p hp)
  unfold pointed
  split
  · rename_i first second rest
    have hpoint : List.filter (fun p ↦ decide (p ≠ 46)) (46 :: second :: rest) =
        List.filter (fun p ↦ decide (p ≠ 46)) (second :: rest) := rfl
    rw [List.filter_cons] at hself ⊢
    rw [hpoint]
    exact hself
  · exact hself

theorem places_pointed {digits : List Nat} (hdigits : ∀ p ∈ digits, p ≠ 46) :
    ((pointed digits).dropWhile (· ≠ 46)).length - 1 = digits.length - 1 := by
  unfold pointed
  split
  · rename_i first second rest
    rw [List.dropWhile_cons, if_pos (decide_eq_true (hdigits first List.mem_cons_self))]
    rfl
  · rename_i hshort
    rw [List.dropWhile_eq_nil_iff.mpr fun p hp ↦ decide_eq_true (hdigits p hp)]
    match digits with
    | [] => rfl
    | [_] => rfl
    | first :: second :: rest => exact absurd rfl (hshort first second rest)

/-- A numeral with an exponent is read as the double next to it. -/
theorem readDigits_exponentDigits {d : Nat} (hd : d ≠ 0) :
    readDigits (exponentDigits d) = .float (nearestDouble d) := by
  obtain ⟨k, hk⟩ := digitPoints_eq d
  have hne := List.length_pos_iff.mpr (significant_ne_nil hd)
  have hdigits : ∀ p ∈ significant d, p ≠ 46 := fun p hp ↦
    digit_ne (significant_bounds hp) (by decide)
  have hmantissa : ∀ p ∈ pointed (significant d), decide (p ≠ 101) = true := by
    intro p hp
    refine decide_eq_true ?_
    rcases mem_pointed hp with rfl | hp
    · decide
    · exact digit_ne (significant_bounds hp) (by decide)
  have htake : (exponentDigits d).takeWhile (· ≠ 101) = pointed (significant d) := by
    rw [exponentDigits, List.append_assoc, List.takeWhile_append_of_pos hmantissa]
    exact List.append_nil _
  have hdrop : (exponentDigits d).dropWhile (· ≠ 101) =
      101 :: 43 :: digitPoints ((digitPoints d).length - 1) := by
    rw [exponentDigits, List.append_assoc, List.dropWhile_append_of_pos hmantissa]
    rfl
  have hlength : (digitPoints d).length - 1 - ((significant d).length - 1) = k := by
    rw [hk, List.length_append, List.length_replicate]
    omega
  rw [readDigits, htake, hdrop]
  dsimp only
  rw [filter_pointed hdigits, places_pointed hdigits, spelled_digitPoints, hlength,
    ← spelled_append_zeros, ← hk, spelled_digitPoints]

/-! ## A number that was published -/

theorem readNumeral_of_ne {text : List Nat} (h : ∀ p ∈ text, p ≠ 45) :
    readNumeral text = readDigits text := by
  unfold readNumeral
  split
  · exact absurd rfl (h 45 List.mem_cons_self)
  · rfl

theorem numberDigits_unsigned (d : Nat) : ∀ p ∈ numberDigits d, p ≠ 45 := by
  have hdigits : ∀ m, ∀ p ∈ digitPoints m, p ≠ 45 := fun m p hp ↦
    digit_ne (digitPoints_bounds hp) (by decide)
  unfold numberDigits
  split
  · exact hdigits d
  · intro p hp
    rw [exponentDigits, List.append_assoc, List.mem_append] at hp
    rcases hp with hp | hp
    · rcases mem_pointed hp with rfl | hp
      · decide
      · exact digit_ne (significant_bounds hp) (by decide)
    · rcases List.mem_append.mp hp with hp | hp
      · rcases List.mem_cons.mp hp with rfl | hp
        · decide
        · rw [List.mem_singleton.mp hp]
          decide
      · exact hdigits _ p hp

/-- What is read where a program wrote a double with its sign. -/
theorem readNumeral_signed (negative : Bool) {d : Nat} (hd : d < 10 ^ 21 ∨ d ≠ 0) :
    readNumeral ((if negative then [45] else []) ++ numberDigits d) =
      if d < 10 ^ 21 then .int (if negative then -d else d)
      else .float (if negative then -nearestDouble d else nearestDouble d) := by
  have hread : readDigits (numberDigits d) =
      if d < 10 ^ 21 then .int d else .float (nearestDouble d) := by
    unfold numberDigits
    split
    · exact readDigits_digitPoints d
    · rename_i hlarge
      exact readDigits_exponentDigits (hd.resolve_left hlarge)
  cases negative with
  | false =>
      rw [if_neg Bool.false_ne_true, List.nil_append, readNumeral_of_ne (numberDigits_unsigned d),
        hread]
      rfl
  | true =>
      rw [if_pos rfl, List.singleton_append, readNumeral, hread]
      split
      · rfl
      · rfl

section Published

variable {m n : Int}

theorem jsNumber_finite (h : overflows n = false) : jsNumber n =
    (if n < 0 then [45] else []) ++ numberDigits (shortestDecimal (nearestDouble n.natAbs)) := by
  rw [jsNumber, h, if_neg Bool.false_ne_true]

theorem overflows_congr (hdouble : nearestDouble m.natAbs = nearestDouble n.natAbs) :
    overflows m = overflows n := by
  unfold overflows
  rw [hdouble]

/-- Only the sign of a number and its nearest double count. -/
theorem jsNumber_congr (hsign : m < 0 ↔ n < 0)
    (hdouble : nearestDouble m.natAbs = nearestDouble n.natAbs) : jsNumber m = jsNumber n := by
  unfold jsNumber
  rw [hdouble, overflows_congr hdouble]
  simp only [hsign]

/-- The integer of a sign and a double has both. -/
theorem signed_double {y : Nat} (hy : nearestDouble y = nearestDouble n.natAbs) :
    ((if n < 0 then -y else y : Int) < 0 ↔ n < 0) ∧
      (if n < 0 then -y else y : Int).natAbs = y := by
  by_cases hn : n < 0
  · have hne : y ≠ 0 := by
      rintro rfl
      exact nearestDouble_ne_zero (by omega : n.natAbs ≠ 0) hy.symm
    rw [if_pos hn]
    omega
  · rw [if_neg hn]
    omega

/-- The number that is read back: of its sign, and with the same double beside it. -/
theorem readNumeral_jsNumber (h : overflows n = false) :
    let x := nearestDouble n.natAbs
    let d := shortestDecimal x
    nearestDouble d = x ∧ readNumeral (jsNumber n) =
      if d < 10 ^ 21 then .int (if n < 0 then -d else d)
      else .float (if n < 0 then -x else x) := by
  intro x d
  have hx : nearestDouble d = x :=
    nearestDouble_shortestDecimal (nearestDouble_nearestDouble _)
  have hd : d < 10 ^ 21 ∨ d ≠ 0 := by
    rcases Nat.eq_zero_or_pos d with hzero | hpos
    · exact .inl (hzero ▸ by decide)
    · exact .inr hpos.ne'
  have hsigned := readNumeral_signed (decide (n < 0)) hd
  simp only [decide_eq_true_eq, hx] at hsigned
  rw [jsNumber_finite h]
  exact ⟨hx, hsigned⟩

/-- **Published twice is published once.** -/
theorem jsNumber_readNumeral (h : overflows n = false) :
    jsNumber (readNumeral (jsNumber n)).value = jsNumber n := by
  obtain ⟨hx, hread⟩ := readNumeral_jsNumber h
  have hsame : ∀ y : Nat, nearestDouble y = nearestDouble n.natAbs →
      jsNumber (if n < 0 then -y else y) = jsNumber n := fun y hy ↦
    jsNumber_congr (signed_double hy).1 (by rw [(signed_double hy).2, hy])
  rw [hread]
  split
  · exact hsame _ hx
  · exact hsame _ (nearestDouble_nearestDouble _)

/-- **Python writes a number that was published as it was.** -/
theorem pyNumber_readNumeral (h : overflows n = false) :
    pyNumber (readNumeral (jsNumber n)) = jsNumber n := by
  obtain ⟨hx, hread⟩ := readNumeral_jsNumber h
  rw [hread, jsNumber_finite h, numberDigits]
  by_cases hd : shortestDecimal (nearestDouble n.natAbs) < 10 ^ 21
  · obtain ⟨hsign, habs⟩ := signed_double hx
    rw [if_pos hd, if_pos hd, pyNumber, decimal, habs]
    simp only [hsign]
  · have hxx := nearestDouble_nearestDouble n.natAbs
    obtain ⟨hsign, habs⟩ := signed_double hxx
    have hfinite : overflows (if n < 0 then -nearestDouble n.natAbs else nearestDouble n.natAbs) =
        false := by
      refine Eq.trans (overflows_congr ?_) h
      rw [habs, hxx]
    have hexponent : ¬shortestDecimal (nearestDouble n.natAbs) < 10 ^ 16 := fun hlt ↦
      hd (hlt.trans (by decide : 10 ^ 16 < 10 ^ 21))
    rw [if_neg hd, if_neg hd, pyNumber, floatRepr, hfinite, habs, hxx]
    simp only [hsign]
    rw [if_neg Bool.false_ne_true, if_neg hexponent]

end Published

/-- An integer is published as the shortest decimal of its double, a large one with an
exponent. -/
example : jsNumber (2 ^ 60) = decimal 1152921504606847000 ∧
    readNumeral (jsNumber (2 ^ 70)) = .float (2 ^ 70) := by
  decide +kernel

end Kascov
