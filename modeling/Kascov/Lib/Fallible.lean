import Mathlib.Tactic.Common

/-!
# Successful runs of fallible folds

What a loop in `Except` that returned says about its steps.  A `foldlM` whose
steps, when they succeed, act as a pure function is a `foldl` of that function;
one whose steps keep an invariant keeps it to the end.
-/

universe u v w

namespace Fallible

variable {ε : Type u} {α : Type v} {β : Type w}

theorem bind_eq_ok {γ : Type w} {x : Except ε β} {f : β → Except ε γ} {c : γ} :
    (x >>= f) = .ok c ↔ ∃ b, x = .ok b ∧ f b = .ok c := by
  cases x with
  | error e => simp [bind, Except.bind]
  | ok b => simp [bind, Except.bind]

@[simp] theorem pure_eq_ok {a b : β} : (pure a : Except ε β) = .ok b ↔ a = b := by
  simp [pure, Except.pure]

theorem map_eq_ok {γ : Type w} {x : Except ε β} {f : β → γ} {c : γ} :
    x.map f = .ok c ↔ ∃ b, x = .ok b ∧ f b = c := by
  cases x with
  | error e => simp [Except.map]
  | ok b => simp [Except.map]

/-- A fold that returned kept every invariant of its steps.  A step is known to
be taken at a member of the list. -/
theorem foldlM_invariant {f : β → α → Except ε β} (P : β → Prop) {xs : List α}
    (step : ∀ b a b', a ∈ xs → P b → f b a = .ok b' → P b') {b b' : β} (hb : P b)
    (h : xs.foldlM f b = .ok b') : P b' := by
  induction xs generalizing b with
  | nil =>
      simp only [List.foldlM_nil, pure_eq_ok] at h
      exact h ▸ hb
  | cons x xs ih =>
      rw [List.foldlM_cons, bind_eq_ok] at h
      obtain ⟨b₁, h₁, h₂⟩ := h
      have hstep : ∀ b a b', a ∈ xs → P b → f b a = .ok b' → P b' :=
        fun b a b' ha ↦ step b a b' (List.mem_cons_of_mem _ ha)
      exact ih hstep (step b x b₁ List.mem_cons_self hb h₁) h₂

/-- The same, for an invariant that also speaks of what is left of the list. -/
theorem foldlM_invariant_rest {f : β → α → Except ε β} (P : List α → β → Prop)
    (step : ∀ x xs b b', P (x :: xs) b → f b x = .ok b' → P xs b') {xs : List α} {b b' : β}
    (hb : P xs b) (h : xs.foldlM f b = .ok b') : P [] b' := by
  induction xs generalizing b with
  | nil =>
      simp only [List.foldlM_nil, pure_eq_ok] at h
      exact h ▸ hb
  | cons x xs ih =>
      rw [List.foldlM_cons, bind_eq_ok] at h
      obtain ⟨b₁, h₁, h₂⟩ := h
      exact ih (step x xs b b₁ hb h₁) h₂

/-- A fold that returned is the pure fold of what its steps do when they
return. -/
theorem foldlM_eq_foldl {f : β → α → Except ε β} {g : β → α → β} {xs : List α}
    (step : ∀ b a b', f b a = .ok b' → b' = g b a) {b b' : β}
    (h : xs.foldlM f b = .ok b') : b' = xs.foldl g b := by
  induction xs generalizing b with
  | nil =>
      simp only [List.foldlM_nil, pure_eq_ok] at h
      exact h.symm
  | cons x xs ih =>
      rw [List.foldlM_cons, bind_eq_ok] at h
      obtain ⟨b₁, h₁, h₂⟩ := h
      rw [List.foldl_cons, ← step b x b₁ h₁]
      exact ih h₂

/-- A fold that carries more than another, and whose steps do what the other's do to
the part they share. -/
theorem foldlM_project {γ : Type w} {f : β → α → Except ε β} {g : γ → α → Except ε γ}
    (part : γ → β) {xs : List α}
    (step : ∀ c a c', g c a = .ok c' → f (part c) a = .ok (part c')) {c c' : γ}
    (h : xs.foldlM g c = .ok c') : xs.foldlM f (part c) = .ok (part c') := by
  induction xs generalizing c with
  | nil =>
      simp only [List.foldlM_nil, pure_eq_ok] at h ⊢
      rw [h]
  | cons x xs ih =>
      rw [List.foldlM_cons, bind_eq_ok] at h ⊢
      obtain ⟨c₁, h₁, h₂⟩ := h
      exact ⟨part c₁, step c x c₁ h₁, ih h₂⟩

/-- A `mapM` that returned is the map of what its steps do when they return. -/
theorem mapM_eq_map {f : α → Except ε β} {g : α → β} {xs : List α} {ys : List β}
    (step : ∀ x y, f x = .ok y → y = g x) (h : xs.mapM f = .ok ys) : ys = xs.map g := by
  induction xs generalizing ys with
  | nil =>
      simp only [List.mapM_nil, pure_eq_ok] at h
      exact h.symm
  | cons x xs ih =>
      rw [List.mapM_cons, bind_eq_ok] at h
      obtain ⟨y, h₁, h⟩ := h
      obtain ⟨ys', h₂, h⟩ := bind_eq_ok.mp h
      rw [pure_eq_ok] at h
      rw [← h, step x y h₁, ih h₂, List.map_cons]

theorem mapM_length {f : α → Except ε β} {xs : List α} {ys : List β} (h : xs.mapM f = .ok ys) :
    ys.length = xs.length := by
  induction xs generalizing ys with
  | nil =>
      simp only [List.mapM_nil, pure_eq_ok] at h
      rw [← h]
      rfl
  | cons x xs ih =>
      rw [List.mapM_cons, bind_eq_ok] at h
      obtain ⟨y, -, h⟩ := h
      obtain ⟨ys', hys, h⟩ := bind_eq_ok.mp h
      rw [pure_eq_ok] at h
      rw [← h, List.length_cons, List.length_cons, ih hys]

/-- Every step of a `mapM` that returned has returned. -/
theorem mapM_ok_of_mem {f : α → Except ε β} {xs : List α} {ys : List β}
    (h : xs.mapM f = .ok ys) {x : α} (hx : x ∈ xs) : ∃ y, f x = .ok y := by
  induction xs generalizing ys with
  | nil => cases hx
  | cons x₀ xs ih =>
      rw [List.mapM_cons, bind_eq_ok] at h
      obtain ⟨y, h₁, h⟩ := h
      obtain ⟨ys', h₂, -⟩ := bind_eq_ok.mp h
      rcases List.mem_cons.mp hx with rfl | hx
      · exact ⟨y, h₁⟩
      · exact ih h₂ hx

/-- A `mapM` that returned produced each result from the element at its
place. -/
theorem mapM_mem {f : α → Except ε β} {xs : List α} {ys : List β}
    (h : xs.mapM f = .ok ys) {y : β} (hy : y ∈ ys) : ∃ x ∈ xs, f x = .ok y := by
  induction xs generalizing ys with
  | nil =>
      simp only [List.mapM_nil, pure_eq_ok] at h
      simp [← h] at hy
  | cons x xs ih =>
      rw [List.mapM_cons, bind_eq_ok] at h
      obtain ⟨y₁, h₁, h₂⟩ := h
      obtain ⟨ys₁, h₃, h₄⟩ := bind_eq_ok.mp h₂
      simp only [pure_eq_ok] at h₄
      subst h₄
      rcases List.mem_cons.mp hy with rfl | hy
      · exact ⟨x, List.mem_cons_self, h₁⟩
      · obtain ⟨x', hx', hf⟩ := ih h₃ hy
        exact ⟨x', List.mem_cons_of_mem _ hx', hf⟩

end Fallible
