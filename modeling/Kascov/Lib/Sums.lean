import Mathlib.Algebra.BigOperators.Group.List.Basic
import Mathlib.Algebra.Order.BigOperators.Group.List
import Mathlib.Algebra.Order.Group.Int
import Mathlib.Algebra.Ring.Int.Defs
import Mathlib.Tactic.Common
import Mathlib.Tactic.Linarith

/-!
# Sums over the rows of a table

A column summed group by group is the column summed; a column of non-negative
numbers bounds the sum of every part of it.
-/

universe u v

namespace Sums

variable {α : Type u} {κ : Type v}

theorem sum_indicator [DecidableEq κ] {keys : List κ} (h : keys.Nodup) {k : κ} (hk : k ∈ keys)
    (x : Int) : (keys.map fun key ↦ if k = key then x else 0).sum = x := by
  induction keys with
  | nil => exact absurd hk List.not_mem_nil
  | cons key keys ih =>
      obtain ⟨hnot, hrest⟩ := List.nodup_cons.mp h
      rw [List.map_cons, List.sum_cons]
      by_cases heq : k = key
      · have hzero : (keys.map fun key ↦ if k = key then x else 0) = keys.map fun _ ↦ 0 := by
          apply List.map_congr_left
          intro other hother
          rw [if_neg]
          rintro rfl
          exact hnot (heq ▸ hother)
        rw [if_pos heq, hzero]
        simp
      · rw [if_neg heq, ih hrest ((List.mem_cons.mp hk).resolve_left heq), zero_add]

/-- A column, group by group. -/
theorem sum_groups [DecidableEq κ] {keys : List κ} (h : keys.Nodup) (key : α → κ)
    (val : α → Int) {rows : List α} (hrows : ∀ a ∈ rows, key a ∈ keys) :
    (keys.map fun k ↦ ((rows.filter (key · = k)).map val).sum).sum = (rows.map val).sum := by
  induction rows with
  | nil => simp
  | cons a rows ih =>
      obtain ⟨ha, hrest⟩ := List.forall_mem_cons.mp hrows
      have hcons : (fun k ↦ (((a :: rows).filter (key · = k)).map val).sum) =
          fun k ↦ (if key a = k then val a else 0) +
            ((rows.filter (key · = k)).map val).sum := by
        funext k
        by_cases hk : key a = k
        · simp [hk]
        · simp [hk]
      rw [hcons, List.sum_map_add, ih hrest, sum_indicator h ha, List.map_cons, List.sum_cons]

/-- A part of a column of non-negative numbers. -/
theorem sum_le_of_sublist {part rows : List α} {val : α → Int} (h : part.Sublist rows)
    (hval : ∀ a ∈ rows, 0 ≤ val a) : (part.map val).sum ≤ (rows.map val).sum := by
  apply (h.map val).sum_le_sum
  intro x hx
  obtain ⟨a, ha, rfl⟩ := List.mem_map.mp hx
  exact hval a ha

theorem sum_nonneg {rows : List α} {val : α → Int} (hval : ∀ a ∈ rows, 0 ≤ val a) :
    0 ≤ (rows.map val).sum := by
  apply List.sum_nonneg
  intro x hx
  obtain ⟨a, ha, rfl⟩ := List.mem_map.mp hx
  exact hval a ha

theorem le_sum_of_mem {rows : List α} {val : α → Int} (hval : ∀ a ∈ rows, 0 ≤ val a) {a : α}
    (ha : a ∈ rows) : val a ≤ (rows.map val).sum := by
  have h := sum_le_of_sublist (List.singleton_sublist.mpr ha) hval
  rwa [List.map_singleton, List.sum_singleton] at h

/-- A column of bounded numbers. -/
theorem sum_le_length {rows : List α} {val : α → Int} {M : Int} (hval : ∀ a ∈ rows, val a ≤ M) :
    (rows.map val).sum ≤ rows.length * M := by
  induction rows with
  | nil => simp
  | cons a rows ih =>
      obtain ⟨ha, hrest⟩ := List.forall_mem_cons.mp hval
      have hsum := ih hrest
      rw [List.map_cons, List.sum_cons, List.length_cons]
      push_cast
      linarith

/-- A column split by a partition of the rows into three. -/
theorem sum_split (val : α → Int) (p q r : α → Bool) {rows : List α}
    (h : ∀ a ∈ rows, (p a = true ∧ q a = false ∧ r a = false) ∨
      (p a = false ∧ q a = true ∧ r a = false) ∨ (p a = false ∧ q a = false ∧ r a = true)) :
    ((rows.filter p).map val).sum + ((rows.filter q).map val).sum +
      ((rows.filter r).map val).sum = (rows.map val).sum := by
  induction rows with
  | nil => simp
  | cons a rows ih =>
      obtain ⟨ha, hrest⟩ := List.forall_mem_cons.mp h
      have hsum := ih hrest
      rw [List.map_cons, List.sum_cons]
      rcases ha with ⟨hp, hq, hr⟩ | ⟨hp, hq, hr⟩ | ⟨hp, hq, hr⟩
      all_goals
        simp only [List.filter_cons, hp, hq, hr, if_true, Bool.false_eq_true, if_false,
          List.map_cons, List.sum_cons]
        linarith

end Sums
