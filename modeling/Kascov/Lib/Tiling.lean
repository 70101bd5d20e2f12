import Mathlib.Tactic.Common
import Mathlib.Data.List.Pairwise
import Mathlib.Order.Basic
import Mathlib.Data.Nat.Basic

/-!
# Ranges laid end to end

A list of nonempty ranges of natural numbers, each of which starts where the one
before it stops.  They are in order, no two meet, and together they cover what lies
between their ends.
-/

universe u

namespace Tiling

variable {α : Type u} (lo hi : α → Nat)

/-- The ranges tile the numbers from one to the other. -/
inductive Tiles (stop : Nat) : Nat → List α → Prop where
  | nil : Tiles stop stop []
  | cons {a : α} {rest : List α} (hlt : lo a < hi a) (tail : Tiles stop (hi a) rest) :
      Tiles stop (lo a) (a :: rest)

variable {lo hi} {start stop : Nat} {list : List α}

namespace Tiles

theorem start_le_stop (h : Tiles lo hi stop start list) : start ≤ stop := by
  induction h with
  | nil => exact le_rfl
  | cons hlt _ ih => exact hlt.le.trans ih

theorem start_le (h : Tiles lo hi stop start list) {a : α} (ha : a ∈ list) : start ≤ lo a := by
  induction h with
  | nil => cases ha
  | cons hlt _ ih =>
      rcases List.mem_cons.mp ha with rfl | ha
      · exact le_rfl
      · exact hlt.le.trans (ih ha)

theorem nonempty (h : Tiles lo hi stop start list) {a : α} (ha : a ∈ list) : lo a < hi a := by
  induction h with
  | nil => cases ha
  | cons hlt _ ih =>
      rcases List.mem_cons.mp ha with rfl | ha
      · exact hlt
      · exact ih ha

theorem le_stop (h : Tiles lo hi stop start list) {a : α} (ha : a ∈ list) : hi a ≤ stop := by
  induction h with
  | nil => cases ha
  | cons hlt tail ih =>
      rcases List.mem_cons.mp ha with rfl | ha
      · exact tail.start_le_stop
      · exact ih ha

/-- The ranges are in order. -/
theorem pairwise (h : Tiles lo hi stop start list) : list.Pairwise fun a b ↦ hi a ≤ lo b := by
  induction h with
  | nil => exact .nil
  | cons _ tail ih => exact .cons (fun b hb ↦ tail.start_le hb) ih

/-- Every number between the ends lies in exactly one range. -/
theorem existsUnique (h : Tiles lo hi stop start list) {n : Nat} (hge : start ≤ n)
    (hlt : n < stop) : ∃! a, a ∈ list ∧ lo a ≤ n ∧ n < hi a := by
  induction h with
  | nil => omega
  | @cons a rest hne tail ih =>
      by_cases hn : n < hi a
      · refine ⟨a, ⟨List.mem_cons_self, hge, hn⟩, ?_⟩
        rintro b ⟨hb, hbge, -⟩
        rcases List.mem_cons.mp hb with rfl | hb
        · rfl
        · have := tail.start_le hb
          omega
      · obtain ⟨b, ⟨hb, hbge, hblt⟩, hunique⟩ := ih (not_lt.mp hn)
        refine ⟨b, ⟨List.mem_cons_of_mem _ hb, hbge, hblt⟩, ?_⟩
        rintro c ⟨hc, hcge, hclt⟩
        rcases List.mem_cons.mp hc with rfl | hc
        · exact absurd hclt hn
        · exact hunique c ⟨hc, hcge, hclt⟩

end Tiles

end Tiling
