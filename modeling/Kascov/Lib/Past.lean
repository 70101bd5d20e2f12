import Mathlib.Tactic.Common
import Mathlib.Data.List.Basic

/-!
# Lists read with their past

A history is a list whose elements mean something only in view of those before
them.  `Past.flatMap` maps each element together with the elements that precede
it; it splits at every cut of the history.
-/

universe u v

namespace Past

variable {α : Type u} {β : Type v}

/-- Each element with what precedes it, `past` being what precedes the list. -/
def flatMap (f : List α → α → List β) : List α → List α → List β
  | _, [] => []
  | past, a :: rest => f past a ++ flatMap f (past ++ [a]) rest

variable (f : List α → α → List β)

@[simp] theorem flatMap_nil (past : List α) : flatMap f past [] = [] := rfl

@[simp] theorem flatMap_cons (past : List α) (a : α) (rest : List α) :
    flatMap f past (a :: rest) = f past a ++ flatMap f (past ++ [a]) rest := rfl

theorem flatMap_append (past xs ys : List α) :
    flatMap f past (xs ++ ys) = flatMap f past xs ++ flatMap f (past ++ xs) ys := by
  induction xs generalizing past with
  | nil => simp
  | cons x xs ih => simp [ih]

theorem flatMap_concat (past xs : List α) (a : α) :
    flatMap f past (xs ++ [a]) = flatMap f past xs ++ f (past ++ xs) a := by
  simp [flatMap_append]

/-- A past common to the whole list. -/
theorem flatMap_shift (base past xs : List α) :
    flatMap f (base ++ past) xs = flatMap (fun pre a ↦ f (base ++ pre) a) past xs := by
  induction xs generalizing past with
  | nil => rfl
  | cons x xs ih => rw [flatMap_cons, flatMap_cons, List.append_assoc, ih]

variable {f}

theorem mem_flatMap {past xs : List α} {b : β} :
    b ∈ flatMap f past xs ↔ ∃ pre a rest, xs = pre ++ a :: rest ∧ b ∈ f (past ++ pre) a := by
  induction xs generalizing past with
  | nil => simp
  | cons x xs ih =>
      rw [flatMap_cons, List.mem_append, ih]
      constructor
      · rintro (hb | ⟨pre, a, rest, rfl, hb⟩)
        · exact ⟨[], x, xs, rfl, by simpa using hb⟩
        · exact ⟨x :: pre, a, rest, rfl, by simpa using hb⟩
      · rintro ⟨pre, a, rest, heq, hb⟩
        cases pre with
        | nil =>
            obtain ⟨rfl, rfl⟩ := List.cons.inj heq
            exact .inl (by simpa using hb)
        | cons y pre =>
            obtain ⟨rfl, rfl⟩ := List.cons.inj heq
            exact .inr ⟨pre, a, rest, rfl, by simpa using hb⟩

/-- Two readings whose results agree at every place of the history agree on it. -/
theorem map_flatMap_congr {γ : Type v} {h : β → γ} {g : List α → α → List γ} {past xs : List α}
    (hfg : ∀ pre a rest, xs = pre ++ a :: rest → (f (past ++ pre) a).map h = g (past ++ pre) a) :
    (flatMap f past xs).map h = flatMap g past xs := by
  induction xs generalizing past with
  | nil => rfl
  | cons x xs ih =>
      have hx := hfg [] x xs rfl
      rw [List.append_nil] at hx
      rw [flatMap_cons, flatMap_cons, List.map_append, hx, ih]
      intro pre a rest heq
      have := hfg (x :: pre) a rest (by rw [heq]; rfl)
      simpa using this

/-- Something holds of each element with what precedes it. -/
def Forall (P : List α → α → Prop) : List α → List α → Prop
  | _, [] => True
  | past, a :: rest => P past a ∧ Forall P (past ++ [a]) rest

instance Forall.decidable (P : List α → α → Prop) [∀ past a, Decidable (P past a)]
    (past : List α) : (xs : List α) → Decidable (Forall P past xs)
  | [] => .isTrue trivial
  | a :: rest =>
      let _ := Forall.decidable P (past ++ [a]) rest
      inferInstanceAs (Decidable (_ ∧ _))

theorem Forall.at {P : List α → α → Prop} {past pre rest : List α} {a : α}
    (h : Forall P past (pre ++ a :: rest)) : P (past ++ pre) a := by
  induction pre generalizing past with
  | nil =>
      rw [List.append_nil]
      exact h.1
  | cons x pre ih =>
      have := ih h.2
      simpa using this

/-- What is the same at every place of a list holds of the whole list alike. -/
theorem forall_congr {P Q : List α → α → Prop} (h : ∀ past a, P past a ↔ Q past a)
    {past xs : List α} : Forall P past xs ↔ Forall Q past xs := by
  induction xs generalizing past with
  | nil => exact Iff.rfl
  | cons x xs ih => exact and_congr (h past x) ih

end Past
