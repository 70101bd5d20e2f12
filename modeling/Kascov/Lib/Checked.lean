import Mathlib.Tactic.Common
import Mathlib.Tactic.Linarith
import Mathlib.Algebra.Order.Ring.Abs
import Mathlib.Algebra.Order.Ring.Int

/-!
# Checked machine arithmetic

A signed machine integer of a given width is an `Int`; an operation that
reports overflow instead of wrapping returns an `Option`.
-/

namespace Checked

/-- The values of a signed integer of `bits + 1` bits. -/
def InRange (bits : Nat) (x : Int) : Prop := -2 ^ bits ≤ x ∧ x < 2 ^ bits

instance (bits : Nat) (x : Int) : Decidable (InRange bits x) :=
  inferInstanceAs (Decidable (_ ∧ _))

/-- `try_from`: the value, if the width holds it. -/
def narrow (bits : Nat) (x : Int) : Option Int := if InRange bits x then some x else none

def mul (bits : Nat) (a b : Int) : Option Int := narrow bits (a * b)

def add (bits : Nat) (a b : Int) : Option Int := narrow bits (a + b)

def sub (bits : Nat) (a b : Int) : Option Int := narrow bits (a - b)

theorem narrow_eq_some {bits : Nat} {x y : Int} :
    narrow bits x = some y ↔ InRange bits x ∧ x = y := by
  unfold narrow
  by_cases h : InRange bits x
  · rw [if_pos h, Option.some.injEq]
    exact ⟨fun e ↦ ⟨h, e⟩, fun e ↦ e.2⟩
  · rw [if_neg h]
    exact ⟨(nomatch ·), fun e ↦ absurd e.1 h⟩

theorem narrow_of_inRange {bits : Nat} {x : Int} (h : InRange bits x) : narrow bits x = some x :=
  if_pos h

theorem inRange_of_nonneg {bits : Nat} {x : Int} (h0 : 0 ≤ x) (h : x < 2 ^ bits) :
    InRange bits x :=
  ⟨le_trans (by simp) h0, h⟩

theorem InRange.abs_le {bits : Nat} {x : Int} (h : InRange bits x) : |x| ≤ 2 ^ bits :=
  abs_le'.mpr ⟨h.2.le, neg_le.mp h.1⟩

theorem inRange_of_abs_lt {bits : Nat} {x : Int} (h : |x| < 2 ^ bits) : InRange bits x :=
  ⟨(abs_lt.mp h).1.le, (abs_lt.mp h).2⟩

/-- The magnitudes of two values bound that of their product. -/
theorem abs_mul_le {x y X Y : Int} (hx : |x| ≤ X) (hy : |y| ≤ Y) : |x * y| ≤ X * Y := by
  rw [abs_mul]
  exact mul_le_mul hx hy (abs_nonneg y) (le_trans (abs_nonneg x) hx)

/-- A quotient, rounded towards zero, is no larger than the exact one. -/
theorem abs_tdiv_le {x X d : Int} (hd : 0 < d) (hx : |x| ≤ X * d) : |x.tdiv d| ≤ X := by
  have hle : |x.tdiv d| * d ≤ |x| := by
    rw [Int.abs_eq_natAbs, Int.abs_eq_natAbs, Int.natAbs_tdiv]
    obtain ⟨n, rfl⟩ := Int.eq_ofNat_of_zero_le hd.le
    exact_mod_cast Nat.div_mul_le_self x.natAbs n
  exact le_of_mul_le_mul_right (hle.trans hx) hd

/-- A product stays below the product of the bounds. -/
theorem mul_inRange {bits : Nat} {a b A B : Int} (ha : 0 ≤ a) (hb : 0 ≤ b) (hA : a ≤ A)
    (hB : b ≤ B) (h : A * B < 2 ^ bits) : InRange bits (a * b) :=
  inRange_of_nonneg (mul_nonneg ha hb)
    (lt_of_le_of_lt (mul_le_mul hA hB hb (le_trans ha hA)) h)

end Checked
