import Mathlib.Data.List.Basic
import Mathlib.Data.Nat.Init

/-!
# Splicing

A pattern is looked for in a list window by window, and the first window that holds it is
overwritten.  Where the pattern also stands further on, its own overwriting there is what
splicing gives only if nothing changes at all.
-/

universe u

namespace Splice

variable {α : Type u}

/-- The windows of a length, in order. -/
def windows (n : Nat) (xs : List α) : List (List α) :=
  (List.range (xs.length + 1 - n)).map fun i ↦ (xs.drop i).take n

/-- The elements from a position on, overwritten by others. -/
def overwrite (xs : List α) (pos : Nat) (new : List α) : List α :=
  xs.take pos ++ (new ++ xs.drop (pos + new.length))

/-- A pattern stands at a position. -/
def StandsAt (pattern xs : List α) (pos : Nat) : Prop :=
  ∃ head tail, xs = head ++ (pattern ++ tail) ∧ head.length = pos

theorem standsAt_append (head pattern tail : List α) :
    StandsAt pattern (head ++ (pattern ++ tail)) head.length :=
  ⟨head, tail, rfl, rfl⟩

theorem overwrite_append {head old tail new : List α} (hlen : new.length = old.length) :
    overwrite (head ++ (old ++ tail)) head.length new = head ++ (new ++ tail) := by
  rw [overwrite, List.take_left, hlen, ← List.drop_drop, List.drop_left, List.drop_left]

theorem length_overwrite {xs old new : List α} {pos : Nat} (h : StandsAt old xs pos)
    (hlen : new.length = old.length) : (overwrite xs pos new).length = xs.length := by
  obtain ⟨head, tail, rfl, rfl⟩ := h
  rw [overwrite_append hlen]
  simp only [List.length_append, hlen]

theorem getElem?_windows {n : Nat} {xs : List α} {i : Nat} {w : List α} :
    (windows n xs)[i]? = some w ↔ i + n ≤ xs.length ∧ (xs.drop i).take n = w := by
  rw [windows, List.getElem?_map, Option.map_eq_some_iff]
  constructor
  · rintro ⟨j, hj, rfl⟩
    obtain ⟨hlt, hvalue⟩ := List.getElem?_eq_some_iff.mp hj
    rw [List.getElem_range] at hvalue
    rw [List.length_range] at hlt
    subst hvalue
    exact ⟨by omega, rfl⟩
  · rintro ⟨hle, rfl⟩
    exact ⟨i, List.getElem?_range (by omega), rfl⟩

/-- A window holds a pattern where the pattern stands. -/
theorem standsAt_iff_window {pattern xs : List α} {pos : Nat} :
    StandsAt pattern xs pos ↔ (windows pattern.length xs)[pos]? = some pattern := by
  rw [getElem?_windows]
  constructor
  · rintro ⟨head, tail, rfl, rfl⟩
    refine ⟨?_, by rw [List.drop_left, List.take_left]⟩
    simp only [List.length_append]
    omega
  · rintro ⟨hle, hwindow⟩
    refine ⟨xs.take pos, (xs.drop pos).drop pattern.length, ?_, ?_⟩
    · conv_rhs => rw [← hwindow]
      rw [List.length_take_of_le (by rw [List.length_drop]; omega), List.take_append_drop,
        List.take_append_drop]
    · rw [List.length_take_of_le (by omega)]

/-- Lists of one length that both repeat after a nonempty list are the same. -/
theorem eq_of_repeat {a b start s t u v : List α} (hstart : start ≠ [])
    (hlen : a.length = b.length) (ha : a ++ s = start ++ (a ++ t))
    (hb : b ++ u = start ++ (b ++ v)) : a = b := by
  have hpos := List.length_pos_iff.mpr hstart
  refine List.ext_getElem? fun i ↦ ?_
  induction i using Nat.strong_induction_on with
  | _ i ih =>
      by_cases hi : i < a.length
      · have hleft : a[i]? = (start ++ (a ++ t))[i]? := by
          rw [← ha, List.getElem?_append_left hi]
        have hright : b[i]? = (start ++ (b ++ v))[i]? := by
          rw [← hb, List.getElem?_append_left (hlen ▸ hi)]
        rw [hleft, hright]
        by_cases hshort : i < start.length
        · rw [List.getElem?_append_left hshort, List.getElem?_append_left hshort]
        · have hle : start.length ≤ i := Nat.le_of_not_lt hshort
          rw [List.getElem?_append_right hle, List.getElem?_append_right hle,
            List.getElem?_append_left (by omega), List.getElem?_append_left (by omega)]
          exact ih (i - start.length) (by omega)
      · rw [List.getElem?_eq_none (Nat.le_of_not_lt hi),
          List.getElem?_eq_none (hlen ▸ Nat.le_of_not_lt hi)]

/-- Overwriting a pattern at one place is overwriting it at a later one only where nothing
changes. -/
theorem overwrite_eq_iff {head old tail new : List α} {pos : Nat}
    (hlen : new.length = old.length) (hstands : StandsAt old (head ++ (old ++ tail)) pos)
    (hle : pos ≤ head.length) :
    overwrite (head ++ (old ++ tail)) pos new = head ++ (new ++ tail) ↔
      pos = head.length ∨ new = old := by
  obtain ⟨start, rest, hxs, rfl⟩ := hstands
  rw [hxs, overwrite_append hlen]
  -- the earlier place is a part of what stands before the later one
  obtain ⟨between, rfl⟩ : start <+: head := by
    have hstart : start <+: head ++ (old ++ tail) := hxs ▸ List.prefix_append _ _
    exact List.prefix_of_prefix_length_le hstart (List.prefix_append _ _) hle
  rw [List.append_assoc] at hxs ⊢
  have hold : between ++ (old ++ tail) = old ++ rest := List.append_cancel_left hxs
  constructor
  · intro h
    have hnew : new ++ rest = between ++ (new ++ tail) := List.append_cancel_left h
    by_cases hbetween : between = []
    · subst hbetween
      exact .inl (by rw [List.append_nil])
    · exact .inr (eq_of_repeat hbetween hlen hnew hold.symm)
  · rintro (hend | rfl)
    · rw [List.length_append, Nat.left_eq_add, List.length_eq_zero_iff] at hend
      subst hend
      rw [List.nil_append] at hold ⊢
      rw [(List.append_inj hold rfl).2]
    · rw [hold]

variable [DecidableEq α]

/-- The position of the first window that holds a pattern. -/
def position (pattern xs : List α) : Option Nat :=
  (windows pattern.length xs).findIdx? (· = pattern)

/-- The first window that holds a pattern, overwritten. -/
def splice (old new xs : List α) : Option (List α) :=
  (position old xs).map fun pos ↦ overwrite xs pos new

theorem position_eq_some {pattern xs : List α} {pos : Nat}
    (h : position pattern xs = some pos) :
    StandsAt pattern xs pos ∧ ∀ q, StandsAt pattern xs q → pos ≤ q := by
  obtain ⟨hlt, hhere, hbefore⟩ := List.findIdx?_eq_some_iff_getElem.mp h
  constructor
  · rw [standsAt_iff_window, List.getElem?_eq_getElem hlt]
    exact congrArg some (of_decide_eq_true hhere)
  · intro q hq
    obtain ⟨hq, hwindow⟩ := List.getElem?_eq_some_iff.mp (standsAt_iff_window.mp hq)
    by_contra hlater
    exact hbefore q (Nat.lt_of_not_le hlater) (decide_eq_true hwindow)

theorem position_isSome {pattern xs : List α} {q : Nat} (h : StandsAt pattern xs q) :
    ∃ pos, position pattern xs = some pos := by
  refine Option.isSome_iff_exists.mp ?_
  rw [position, List.findIdx?_isSome, List.any_eq_true]
  exact ⟨pattern, List.mem_of_getElem? (standsAt_iff_window.mp h), decide_eq_true rfl⟩

theorem splice_isSome {old new xs : List α} {q : Nat} (h : StandsAt old xs q) :
    ∃ out, splice old new xs = some out := by
  obtain ⟨pos, hpos⟩ := position_isSome h
  exact ⟨overwrite xs pos new, congrArg (Option.map _) hpos⟩

/-- Splicing keeps the length. -/
theorem length_splice {old new xs out : List α} (h : splice old new xs = some out)
    (hlen : new.length = old.length) : out.length = xs.length := by
  obtain ⟨pos, hpos, rfl⟩ := Option.map_eq_some_iff.mp h
  exact length_overwrite (position_eq_some hpos).1 hlen

/-- Splicing overwrites a pattern where it stands exactly when it does not stand before, or
is its own replacement. -/
theorem splice_eq_iff {head old tail new : List α} (hlen : new.length = old.length) :
    splice old new (head ++ (old ++ tail)) = some (head ++ (new ++ tail)) ↔
      position old (head ++ (old ++ tail)) = some head.length ∨ new = old := by
  have hstands := standsAt_append head old tail
  obtain ⟨pos, hpos⟩ := position_isSome hstands
  obtain ⟨hthere, hfirst⟩ := position_eq_some hpos
  rw [splice, hpos, Option.map_some, Option.some.injEq, Option.some.injEq]
  exact overwrite_eq_iff hlen hthere (hfirst _ hstands)

end Splice
