import Mathlib.Tactic.Common
import Mathlib.Data.List.Basic

/-!
# Reading an ordered log page by page

A log whose entries carry increasing keys is read from a cursor: a page holds
the first entries above the cursor, and the next cursor is the key of its last
entry.  What lies above the last key read is exactly the rest of the log.
-/

universe u

namespace Paging

variable {α : Type u} {key : α → Nat}

/-- Above the last entry of an initial segment lies the rest. -/
theorem filter_above_last {pre rest : List α}
    (h : (pre ++ rest).Pairwise (key · < key ·)) {a : α} (hlast : pre.getLast? = some a) :
    (pre ++ rest).filter (key a < key ·) = rest := by
  obtain ⟨init, rfl⟩ := List.getLast?_eq_some_iff.mp hlast
  obtain ⟨hpre, -, hcross⟩ := List.pairwise_append.mp h
  rw [List.filter_append, List.filter_eq_nil_iff.mpr, List.nil_append, List.filter_eq_self.mpr]
  · exact fun x hx ↦ decide_eq_true (hcross a (by simp) x hx)
  · intro x hx
    rw [decide_eq_true_eq, Nat.not_lt]
    rcases List.mem_append.mp hx with hx | hx
    · exact Nat.le_of_lt ((List.pairwise_append.mp hpre).2.2 x hx a (by simp))
    · exact Nat.le_of_eq (congrArg key (List.mem_singleton.mp hx))

/-- Above a key below all of them lies the whole log. -/
theorem filter_above_start {log : List α} {k : Nat} (h : ∀ a ∈ log, k < key a) :
    log.filter (k < key ·) = log :=
  List.filter_eq_self.mpr fun a ha ↦ decide_eq_true (h a ha)

/-- The last entry of a page read after a cursor. -/
theorem getLast?_append_take {pre rest : List α} {n : Nat} {a : α}
    (h : (rest.take n).getLast? = some a) : (pre ++ rest.take n).getLast? = some a := by
  rw [List.getLast?_append, h]
  rfl

end Paging
