import Mathlib.Tactic.Common

/-!
# Programs that commit as they go

A program that calls a store may fail between two of its transactions.  A
transaction that fails leaves the store as it was, and what was committed before
it stays.  A program is therefore a function to a result *and* a store, and an
invariant of its transactions holds of the store it leaves, whatever the result.
-/

namespace Commits

/-- A program over a store: its result, and the store it leaves. -/
def Prog (σ ε α : Type) : Type := σ → Except ε α × σ

variable {σ ε α β γ : Type}

/-- `pure` commits nothing, and an error skips what follows it. -/
instance instMonad : Monad (Prog σ ε) where
  pure a := fun s ↦ (.ok a, s)
  bind x f := fun s ↦
    match x s with
    | (.ok a, s') => f a s'
    | (.error e, s') => (.error e, s')

/-- One transaction. -/
def commit (tx : σ → Except ε (σ × α)) : Prog σ ε α := fun s ↦
  match tx s with
  | .ok (s', a) => (.ok a, s')
  | .error e => (.error e, s)

/-- An answer from outside the store, which may be an error. -/
def answer (x : Except ε α) : Prog σ ε α := fun s ↦ (x, s)

/-- A read of the store. -/
def read (f : σ → α) : Prog σ ε α := fun s ↦ (.ok (f s), s)

/-! ## Runs that return -/

@[simp] theorem pure_eq_ok {a b : α} {s s' : σ} :
    (pure a : Prog σ ε α) s = (.ok b, s') ↔ a = b ∧ s = s' := by
  change (Except.ok a, s) = (Except.ok b, s') ↔ _
  rw [Prod.mk.injEq, Except.ok.injEq]

theorem bind_eq_ok {x : Prog σ ε α} {f : α → Prog σ ε β} {b : β} {s s' : σ} :
    (x >>= f) s = (.ok b, s') ↔ ∃ a s₁, x s = (.ok a, s₁) ∧ f a s₁ = (.ok b, s') := by
  change (match x s with
    | (.ok a, s₁) => f a s₁
    | (.error e, s₁) => (.error e, s₁)) = _ ↔ _
  rcases x s with ⟨e | a, s₁⟩
  · simp
  · simp

@[simp] theorem commit_eq_ok {tx : σ → Except ε (σ × α)} {a : α} {s s' : σ} :
    commit tx s = (.ok a, s') ↔ tx s = .ok (s', a) := by
  unfold commit
  rcases tx s with e | ⟨s₁, a₁⟩
  · simp
  · simp [and_comm]

@[simp] theorem answer_eq_ok {x : Except ε α} {a : α} {s s' : σ} :
    answer x s = (.ok a, s') ↔ x = .ok a ∧ s = s' := by
  rw [answer, Prod.mk.injEq]

@[simp] theorem read_eq_ok {f : σ → α} {a : α} {s s' : σ} :
    (read f : Prog σ ε α) s = (.ok a, s') ↔ f s = a ∧ s = s' := by
  rw [read, Prod.mk.injEq, Except.ok.injEq]

/-- A program whose first part returned goes on with its second. -/
theorem bind_of_ok {x : Prog σ ε α} {f : α → Prog σ ε β} {a : α} {s s₁ : σ}
    (h : x s = (.ok a, s₁)) : (x >>= f) s = f a s₁ := by
  change (match x s with
    | (.ok a, s₁) => f a s₁
    | (.error e, s₁) => (.error e, s₁)) = _
  rw [h]

/-- A program whose first part failed is over. -/
theorem bind_of_error {x : Prog σ ε α} {f : α → Prog σ ε β} {e : ε} {s s₁ : σ}
    (h : x s = (.error e, s₁)) : (x >>= f) s = (.error e, s₁) := by
  change (match x s with
    | (.ok a, s₁) => f a s₁
    | (.error e, s₁) => (.error e, s₁)) = _
  rw [h]

/-! ## Runs that fail -/

/-- A program fails where its first part does, or else where its second does. -/
theorem bind_eq_error {x : Prog σ ε α} {f : α → Prog σ ε β} {e : ε} {s s' : σ} :
    (x >>= f) s = (.error e, s') ↔
      x s = (.error e, s') ∨ ∃ a s₁, x s = (.ok a, s₁) ∧ f a s₁ = (.error e, s') := by
  change (match x s with
    | (.ok a, s₁) => f a s₁
    | (.error e, s₁) => (.error e, s₁)) = _ ↔ _
  rcases x s with ⟨e' | a, s₁⟩
  · simp
  · simp

@[simp] theorem commit_eq_error {tx : σ → Except ε (σ × α)} {e : ε} {s s' : σ} :
    commit tx s = (.error e, s') ↔ tx s = .error e ∧ s = s' := by
  unfold commit
  rcases tx s with e' | ⟨s₁, a₁⟩
  · simp
  · simp

@[simp] theorem answer_eq_error {x : Except ε α} {e : ε} {s s' : σ} :
    (answer x : Prog σ ε α) s = (.error e, s') ↔ x = .error e ∧ s = s' := by
  rw [answer, Prod.mk.injEq]

theorem pure_ne_error {a : α} {e : ε} {s s' : σ} :
    (pure a : Prog σ ε α) s ≠ (.error e, s') :=
  fun h ↦ nomatch (Prod.mk.inj h).1

theorem read_ne_error {f : σ → α} {e : ε} {s s' : σ} :
    (read f : Prog σ ε α) s ≠ (.error e, s') :=
  fun h ↦ nomatch (Prod.mk.inj h).1

/-! ## Invariants -/

/-- The program keeps `P`, whether it returns or fails. -/
def Keeps (P : σ → Prop) (x : Prog σ ε α) : Prop := ∀ s, P s → P (x s).2

variable {P : σ → Prop}

theorem Keeps.pure (a : α) : Keeps P (Pure.pure a : Prog σ ε α) := fun _ hs ↦ hs

theorem Keeps.answer (x : Except ε α) : Keeps P (answer x) := fun _ hs ↦ hs

theorem Keeps.read (f : σ → α) : Keeps P (read f : Prog σ ε α) := fun _ hs ↦ hs

theorem Keeps.bind {x : Prog σ ε α} {f : α → Prog σ ε β} (hx : Keeps P x)
    (hf : ∀ a, Keeps P (f a)) : Keeps P (x >>= f) := by
  intro s hs
  have hs₁ := hx s hs
  change P (match x s with
    | (.ok a, s₁) => f a s₁
    | (.error e, s₁) => (.error e, s₁)).2
  rcases hrun : x s with ⟨e | a, s₁⟩
  · rw [hrun] at hs₁
    exact hs₁
  · rw [hrun] at hs₁
    exact hf a s₁ hs₁

/-- A program that begins with a read may use what it read of the store. -/
theorem Keeps.read_bind {g : σ → α} {f : α → Prog σ ε β}
    (h : ∀ s, P s → P (f (g s) s).2) : Keeps P (Commits.read g >>= f) := h

theorem Keeps.commit {tx : σ → Except ε (σ × α)}
    (h : ∀ s s' a, P s → tx s = .ok (s', a) → P s') : Keeps P (commit tx) := by
  intro s hs
  unfold Commits.commit
  rcases htx : tx s with e | ⟨s', a⟩
  · exact hs
  · exact h s s' a hs htx

theorem Keeps.foldlM {f : β → α → Prog σ ε β} {xs : List α}
    (hf : ∀ a ∈ xs, ∀ b, Keeps P (f b a)) (b : β) : Keeps P (xs.foldlM f b) := by
  induction xs generalizing b with
  | nil => exact .pure b
  | cons x xs ih =>
      exact (hf x List.mem_cons_self b).bind fun b' ↦
        ih (fun a ha ↦ hf a (List.mem_cons_of_mem _ ha)) b'

/-- A program that returned kept its invariants. -/
theorem Keeps.of_ok {x : Prog σ ε α} (hx : Keeps P x) {a : α} {s s' : σ} (hs : P s)
    (h : x s = (.ok a, s')) : P s' := by
  have hs' := hx s hs
  rw [h] at hs'
  exact hs'

/-! ## Folds -/

section Folds

variable {f : β → α → Prog σ ε β}

theorem foldlM_nil_eq_ok {b b' : β} {s s' : σ} :
    ([] : List α).foldlM f b s = (.ok b', s') ↔ b = b' ∧ s = s' := pure_eq_ok

theorem foldlM_cons_eq_ok {x : α} {xs : List α} {b b' : β} {s s' : σ} :
    (x :: xs).foldlM f b s = (.ok b', s') ↔
      ∃ b₁ s₁, f b x s = (.ok b₁, s₁) ∧ xs.foldlM f b₁ s₁ = (.ok b', s') := by
  rw [List.foldlM_cons]
  exact bind_eq_ok

theorem foldlM_append_eq_ok {xs ys : List α} {b b' : β} {s s' : σ} :
    (xs ++ ys).foldlM f b s = (.ok b', s') ↔
      ∃ b₁ s₁, xs.foldlM f b s = (.ok b₁, s₁) ∧ ys.foldlM f b₁ s₁ = (.ok b', s') := by
  induction xs generalizing b s with
  | nil =>
      constructor
      · exact fun h ↦ ⟨b, s, foldlM_nil_eq_ok.mpr ⟨rfl, rfl⟩, h⟩
      · rintro ⟨b₁, s₁, hnil, h⟩
        obtain ⟨rfl, rfl⟩ := foldlM_nil_eq_ok.mp hnil
        exact h
  | cons x xs ih =>
      rw [List.cons_append, foldlM_cons_eq_ok]
      constructor
      · rintro ⟨b₁, s₁, hx, h⟩
        obtain ⟨b₂, s₂, hxs, hys⟩ := ih.mp h
        exact ⟨b₂, s₂, foldlM_cons_eq_ok.mpr ⟨b₁, s₁, hx, hxs⟩, hys⟩
      · rintro ⟨b₂, s₂, h, hys⟩
        obtain ⟨b₁, s₁, hx, hxs⟩ := foldlM_cons_eq_ok.mp h
        exact ⟨b₁, s₁, hx, ih.mpr ⟨b₂, s₂, hxs, hys⟩⟩

/-- What no step of a fold touches is the same at both ends. -/
theorem foldlM_frame (view : σ → γ) {xs : List α}
    (step : ∀ x ∈ xs, ∀ b s b' s', f b x s = (.ok b', s') → view s' = view s) {b b' : β}
    {s s' : σ} (h : xs.foldlM f b s = (.ok b', s')) : view s' = view s := by
  induction xs generalizing b s with
  | nil => rw [(foldlM_nil_eq_ok.mp h).2]
  | cons x xs ih =>
      obtain ⟨b₁, s₁, hx, hxs⟩ := foldlM_cons_eq_ok.mp h
      rw [ih (fun y hy ↦ step y (List.mem_cons_of_mem _ hy)) hxs,
        step x List.mem_cons_self b s b₁ s₁ hx]

/-- What only the step at `x` touches is changed by that step alone. -/
theorem foldlM_view (view : σ → γ) {front rest : List α} {x : α}
    (frame : ∀ y ∈ front ++ rest, ∀ b s b' s', f b y s = (.ok b', s') → view s' = view s)
    {b b' : β} {s s' : σ} (h : (front ++ x :: rest).foldlM f b s = (.ok b', s')) :
    ∃ b₁ s₁ b₂ s₂, front.foldlM f b s = (.ok b₁, s₁) ∧ f b₁ x s₁ = (.ok b₂, s₂) ∧
      view s₁ = view s ∧ view s' = view s₂ := by
  obtain ⟨b₁, s₁, hfront, h⟩ := foldlM_append_eq_ok.mp h
  obtain ⟨b₂, s₂, hx, hrest⟩ := foldlM_cons_eq_ok.mp h
  refine ⟨b₁, s₁, b₂, s₂, hfront, hx, ?_, ?_⟩
  · exact foldlM_frame view (fun y hy ↦ frame y (List.mem_append_left _ hy)) hfront
  · exact foldlM_frame view (fun y hy ↦ frame y (List.mem_append_right _ hy)) hrest

end Folds

end Commits
