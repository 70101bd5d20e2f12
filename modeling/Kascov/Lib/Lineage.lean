import Mathlib.Tactic.Common
import Mathlib.Data.List.Basic
import Mathlib.Data.List.Infix
import Mathlib.Data.List.Nodup

/-!
# Lines of ancestors

Every element has a line that leads to it, and the line begins with that of each element on
it: the elements form a tree, and a line is a branch from the root.  A walk along a branch
that takes some of what comes after an element gets to an element whose line is the longer
one.
-/

universe u

/-- The line of each element, from the oldest to the element. -/
structure Lineage (α : Type u) where
  path : α → List α
  ends : ∀ a, ∃ front, path a = front ++ [a]
  begins : ∀ a b, a ∈ path b → path a <+: path b
  nodup : ∀ a, (path a).Nodup

namespace Lineage

variable {α : Type u} (l : Lineage α) {a b c t : α}

theorem mem_self (a : α) : a ∈ l.path a := by
  obtain ⟨front, h⟩ := l.ends a
  rw [h]
  exact List.mem_append_right _ (List.mem_singleton_self a)

theorem subset (h : a ∈ l.path b) : l.path a ⊆ l.path b := (l.begins a b h).subset

theorem mem_trans (h : a ∈ l.path b) (h' : b ∈ l.path c) : a ∈ l.path c := l.subset h' h

/-- What comes after `a` on the line of `t`. -/
def after (a t : α) : List α := (l.path t).drop (l.path a).length

theorem path_append_after (h : a ∈ l.path t) : l.path a ++ l.after a t = l.path t := by
  obtain ⟨rest, hrest⟩ := l.begins a t h
  rw [after, ← hrest, List.drop_left]

/-- Two beginnings of a line that end alike are the same. -/
theorem prefix_unique {xs ys zs : List α} (hnodup : zs.Nodup) (hxs : xs ++ [c] <+: zs)
    (hys : ys ++ [c] <+: zs) : xs = ys := by
  obtain ⟨rest, rfl⟩ := hxs
  obtain ⟨rest', h⟩ := hys
  rw [List.append_assoc, List.singleton_append] at h hnodup
  rw [List.append_assoc, List.singleton_append] at h
  obtain ⟨hc, -⟩ := List.nodup_cons.mp (List.nodup_middle.mp hnodup)
  rw [List.mem_append, not_or] at hc
  exact ((List.append_cons_inj_of_notMem hc.1 hc.2).mp h.symm).1

/-- The line of what a walk gets to is the line of its start and what it took. -/
theorem path_of_walk (ha : a ∈ l.path t) {front : List α} (h : front ++ [c] <+: l.after a t) :
    c ∈ l.path t ∧ l.path c = l.path a ++ (front ++ [c]) := by
  have hwalk : l.path a ++ (front ++ [c]) <+: l.path t := by
    rw [← l.path_append_after ha]
    exact (List.prefix_append_right_inj _).mpr h
  have hc : c ∈ l.path t := by
    refine hwalk.subset (List.mem_append_right _ (List.mem_append_right _ ?_))
    exact List.mem_singleton_self c
  obtain ⟨front', hfront⟩ := l.ends c
  have hbegins := l.begins c t hc
  rw [hfront] at hbegins
  rw [← List.append_assoc] at hwalk ⊢
  refine ⟨hc, ?_⟩
  rw [hfront, prefix_unique (l.nodup t) hbegins hwalk]

/-- What is left after a walk is what it did not take. -/
theorem after_of_walk (ha : a ∈ l.path t) {front : List α} (h : front ++ [c] <+: l.after a t) :
    (front ++ [c]) ++ l.after c t = l.after a t := by
  obtain ⟨hc, hpath⟩ := l.path_of_walk ha h
  have hall := l.path_append_after hc
  rw [hpath, List.append_assoc, ← l.path_append_after ha] at hall
  exact List.append_cancel_left hall

end Lineage
