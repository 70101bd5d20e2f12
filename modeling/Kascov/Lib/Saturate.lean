import Mathlib.Tactic.Common
import Mathlib.Data.List.Perm.Basic

/-!
# Saturating a partial assignment

Rules assign values to indices and may use the values assigned so far.  If more
assigned values never disable a rule and no index can be given two values, then
every saturated assignment is the same one: what the rules derive.  In which
order they were applied leaves no trace.

The second part is about taking turns in any order: one turn for each item of a
list, as a relation between the states before and after.
-/

universe u v w

namespace Saturate

section Rules

variable {ι : Type u} {ν : Type v} (rule : (ι → Option ν) → ι → ν → Prop) (s₀ : ι → Option ν)

/-- The second assignment keeps what the first assigns. -/
def Extends (s t : ι → Option ν) : Prop := ∀ i v, s i = some v → t i = some v

/-- More assigned values disable no rule. -/
def Growing : Prop := ∀ s t i v, Extends s t → rule s i v → rule t i v

/-- What the rules derive from the given values. -/
inductive Derives : ι → ν → Prop
  | given {i : ι} {v : ν} (h : s₀ i = some v) : Derives i v
  | derived (t : ι → Option ν) {i : ι} {v : ν} (used : ∀ j w, t j = some w → Derives j w)
      (unassigned : s₀ i = none) (h : rule t i v) : Derives i v

/-- No index is given two values. -/
def SingleValued : Prop := ∀ i v w, Derives rule s₀ i v → Derives rule s₀ i w → v = w

/-- All values come from the rules, and no rule assigns an index that has none. -/
structure Saturated (s : ι → Option ν) : Prop where
  given : Extends s₀ s
  sound : ∀ i v, s i = some v → Derives rule s₀ i v
  closed : ∀ i v, rule s i v → s i ≠ none

variable {rule s₀} {s t : ι → Option ν}

theorem Saturated.complete (h : Saturated rule s₀ s) (hgrowing : Growing rule)
    (hsingle : SingleValued rule s₀) {i : ι} {v : ν} (hv : Derives rule s₀ i v) :
    s i = some v := by
  induction hv with
  | given hi => exact h.given _ _ hi
  | derived t used unassigned hrule ih =>
      obtain ⟨w, hw⟩ := Option.ne_none_iff_exists'.mp
        (h.closed _ _ (hgrowing t s _ _ ih hrule))
      rw [hw, hsingle _ _ _ (h.sound _ _ hw) (.derived t used unassigned hrule)]

/-- **A saturated assignment holds just what the rules derive.** -/
theorem Saturated.eq_some_iff (h : Saturated rule s₀ s) (hgrowing : Growing rule)
    (hsingle : SingleValued rule s₀) (i : ι) (v : ν) : s i = some v ↔ Derives rule s₀ i v :=
  ⟨h.sound i v, h.complete hgrowing hsingle⟩

/-- **There is one saturated assignment.** -/
theorem Saturated.unique (hs : Saturated rule s₀ s) (ht : Saturated rule s₀ t)
    (hgrowing : Growing rule) (hsingle : SingleValued rule s₀) : s = t := by
  funext i
  apply Option.ext
  intro v
  exact (hs.eq_some_iff hgrowing hsingle i v).trans (ht.eq_some_iff hgrowing hsingle i v).symm

end Rules

/-! ## Turns -/

section Turns

variable {σ : Type u} {α : Type v} (turn : α → σ → σ → Prop)

/-- One turn for each item of a list, in its order. -/
inductive Turns : List α → σ → σ → Prop
  | nil {s : σ} : Turns [] s s
  | cons {a : α} {rest : List α} {s m t : σ} (head : turn a s m) (tail : Turns rest m t) :
      Turns (a :: rest) s t

/-- One turn for each item of a list, in any order. -/
def AnyOrder (items : List α) (s t : σ) : Prop :=
  ∃ order : List α, order.Perm items ∧ Turns turn order s t

variable {turn} {items : List α} {s t : σ}

/-- What every turn preserves, a sequence of turns preserves. -/
theorem Turns.preserves {P : σ → Prop} (h : Turns turn items s t)
    (step : ∀ a ∈ items, ∀ s t, P s → turn a s t → P t) (hs : P s) : P t := by
  induction h with
  | nil => exact hs
  | cons head _ ih =>
      exact ih (fun a ha ↦ step a (List.mem_cons_of_mem _ ha))
        (step _ List.mem_cons_self _ _ hs head)

theorem AnyOrder.preserves {P : σ → Prop} (h : AnyOrder turn items s t)
    (step : ∀ a ∈ items, ∀ s t, P s → turn a s t → P t) (hs : P s) : P t := by
  obtain ⟨order, hperm, h⟩ := h
  exact h.preserves (fun a ha ↦ step a (hperm.mem_iff.mp ha)) hs

/-- A function that takes the turns takes them in the order of the list. -/
theorem Turns.of_foldl {P : σ → Prop} {f : σ → α → σ} (items : List α)
    (step : ∀ a ∈ items, ∀ s, P s → turn a s (f s a) ∧ P (f s a)) (hs : P s) :
    Turns turn items s (items.foldl f s) := by
  induction items generalizing s with
  | nil => exact .nil
  | cons a items ih =>
      obtain ⟨hturn, hnext⟩ := step a List.mem_cons_self s hs
      exact .cons hturn (ih (fun b hb ↦ step b (List.mem_cons_of_mem _ hb)) hnext)

theorem AnyOrder.of_foldl {P : σ → Prop} {f : σ → α → σ} (items : List α)
    (step : ∀ a ∈ items, ∀ s, P s → turn a s (f s a) ∧ P (f s a)) (hs : P s) :
    AnyOrder turn items s (items.foldl f s) :=
  ⟨items, .refl _, Turns.of_foldl items step hs⟩

section Fixed

variable {below : σ → σ → Prop} (refl : ∀ s, below s s)
  (trans : ∀ s t r, below s t → below t r → below s r)
  (anti : ∀ s t, below s t → below t s → s = t) (up : ∀ a s t, turn a s t → below s t)

include refl trans up

theorem Turns.le (h : Turns turn items s t) : below s t :=
  h.preserves (P := below s) (fun a _ m r hm hturn ↦ trans _ _ _ hm (up a m r hturn)) (refl s)

theorem AnyOrder.le (h : AnyOrder turn items s t) : below s t := by
  obtain ⟨order, -, h⟩ := h
  exact h.le refl trans up

include anti

/-- Turns that only go up and end where they began have each changed nothing. -/
theorem Turns.fixed (h : Turns turn items s t) (heq : t = s) : ∀ a ∈ items, turn a s s := by
  induction h with
  | nil => exact fun a ha ↦ by cases ha
  | cons head tail ih =>
      obtain rfl := heq
      obtain rfl := anti _ _ (up _ _ _ head) (tail.le refl trans up)
      exact List.forall_mem_cons.mpr ⟨head, ih rfl⟩

theorem AnyOrder.fixed (h : AnyOrder turn items s s) : ∀ a ∈ items, turn a s s := by
  obtain ⟨order, hperm, h⟩ := h
  exact fun a ha ↦ h.fixed refl trans anti up rfl a (hperm.mem_iff.mpr ha)

end Fixed

end Turns

end Saturate
