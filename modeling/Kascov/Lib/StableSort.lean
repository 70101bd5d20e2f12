import Mathlib.Data.List.Sort

/-!
# Sorting what is partly sorted

An insertion sort is stable, so that sorting the front of a list first changes nothing, and a
list whose front is sorted and whose rest belongs behind it is sorted as it is.
-/

namespace StableSort

universe u

variable {α : Type u} {r : α → α → Prop} [DecidableRel r] [Std.Total r] [IsTrans α r]

/-- Two insertions commute where the order of the two is strict. -/
theorem orderedInsert_comm {a b : α} (h : ¬ r b a) (xs : List α) :
    (xs.orderedInsert r b).orderedInsert r a = (xs.orderedInsert r a).orderedInsert r b := by
  have hab : r a b := (Std.Total.total (r := r) a b).resolve_right h
  induction xs with
  | nil =>
      rw [List.orderedInsert_nil, List.orderedInsert_nil, List.orderedInsert_cons_of_le r _ hab,
        List.orderedInsert_of_not_le r _ h, List.orderedInsert_nil]
  | cons x xs ih =>
      by_cases hb : r b x
      · have ha : r a x := IsTrans.trans _ _ _ hab hb
        rw [List.orderedInsert_cons_of_le r _ hb, List.orderedInsert_cons_of_le r _ hab,
          List.orderedInsert_cons_of_le r _ ha, List.orderedInsert_of_not_le r _ h,
          List.orderedInsert_cons_of_le r _ hb]
      · by_cases ha : r a x
        · rw [List.orderedInsert_of_not_le r _ hb, List.orderedInsert_cons_of_le r _ ha,
            List.orderedInsert_cons_of_le r _ ha, List.orderedInsert_of_not_le r _ h,
            List.orderedInsert_of_not_le r _ hb]
        · rw [List.orderedInsert_of_not_le r _ hb, List.orderedInsert_of_not_le r _ ha,
            List.orderedInsert_of_not_le r _ ha, List.orderedInsert_of_not_le r _ hb, ih]

/-- What is inserted into the front is inserted into the whole. -/
theorem insertionSort_orderedInsert (x : α) (xs ys : List α) :
    (xs.orderedInsert r x ++ ys).insertionSort r =
      ((xs ++ ys).insertionSort r).orderedInsert r x := by
  induction xs with
  | nil => rfl
  | cons a xs ih =>
      by_cases h : r x a
      · rw [List.orderedInsert_cons_of_le r _ h]
        rfl
      · rw [List.orderedInsert_of_not_le r _ h, List.cons_append, List.insertionSort_cons, ih,
          List.cons_append, List.insertionSort_cons, orderedInsert_comm h]

/-- **The front may be sorted first.** -/
theorem insertionSort_append (xs ys : List α) :
    (xs.insertionSort r ++ ys).insertionSort r = (xs ++ ys).insertionSort r := by
  induction xs with
  | nil => rfl
  | cons x xs ih =>
      rw [List.insertionSort_cons, insertionSort_orderedInsert, ih]
      rfl

/-- The rest may be put behind the sorted front as it is, where it belongs there. -/
theorem insertionSort_append_eq {xs ys : List α} (h : (xs.insertionSort r ++ ys).Pairwise r) :
    (xs ++ ys).insertionSort r = xs.insertionSort r ++ ys := by
  rw [← insertionSort_append]
  exact h.insertionSort_eq

omit [Std.Total r] [IsTrans α r] in
/-- Two orders that agree on a list sort it alike. -/
theorem insertionSort_congr {s : α → α → Prop} [DecidableRel s] {xs : List α}
    (h : ∀ a ∈ xs, ∀ b ∈ xs, r a b ↔ s a b) : xs.insertionSort r = xs.insertionSort s := by
  have hmap := List.map_insertionSort r s id xs h
  rw [List.map_id, List.map_id] at hmap
  exact hmap

end StableSort
