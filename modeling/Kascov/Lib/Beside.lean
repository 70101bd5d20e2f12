import Mathlib.Data.List.Basic
import Kascov.Lib.Commits

/-!
# Programs beside a log of what they announce

A program that announces what it commits is a program over a store and a log.  Without the
log it is a program over the store, its shadow.  It echoes a view of the store when what it
announces is what the view gains.
-/

namespace Commits

variable {σ ε α β ω τ : Type}

/-- A program that announces nothing. -/
def beside (x : Prog σ ε α) : Prog (σ × List ω) ε α := fun s ↦ ((x s.1).1, (x s.1).2, s.2)

/-- Entries are announced. -/
def emit (entries : List ω) : Prog (σ × List ω) ε Unit := fun s ↦ (.ok (), s.1, s.2 ++ entries)

/-! ## Shadows -/

/-- The program without its log. -/
def Shadows (y : Prog (σ × List ω) ε α) (x : Prog σ ε α) : Prop :=
  ∀ s, (y s).1 = (x s.1).1 ∧ (y s).2.1 = (x s.1).2

theorem shadows_pure (a : α) : Shadows (pure a : Prog (σ × List ω) ε α) (pure a) :=
  fun _ ↦ ⟨rfl, rfl⟩

theorem shadows_beside (x : Prog σ ε α) : Shadows (beside x : Prog (σ × List ω) ε α) x :=
  fun _ ↦ ⟨rfl, rfl⟩

theorem shadows_emit (entries : List ω) :
    Shadows (emit entries : Prog (σ × List ω) ε Unit) (pure ()) := fun _ ↦ ⟨rfl, rfl⟩

theorem Shadows.bind {y : Prog (σ × List ω) ε α} {x : Prog σ ε α}
    {g : α → Prog (σ × List ω) ε β} {f : α → Prog σ ε β} (h : Shadows y x)
    (hfg : ∀ a, Shadows (g a) (f a)) : Shadows (y >>= g) (x >>= f) := by
  intro s
  obtain ⟨hresult, hstore⟩ := h s
  rcases hy : y s with ⟨e | a, s₁⟩
  · have hx : x s.1 = (.error e, s₁.1) := by
      rw [hy] at hresult hstore
      exact Prod.ext hresult.symm hstore.symm
    rw [bind_of_error hy, bind_of_error hx]
    exact ⟨rfl, rfl⟩
  · have hx : x s.1 = (.ok a, s₁.1) := by
      rw [hy] at hresult hstore
      exact Prod.ext hresult.symm hstore.symm
    rw [bind_of_ok hy, bind_of_ok hx]
    exact hfg a s₁

/-- An announcement is not seen. -/
theorem shadows_emit_bind (entries : List ω) {g : Unit → Prog (σ × List ω) ε β} {x : Prog σ ε β}
    (h : Shadows (g ()) x) : Shadows (emit entries >>= g) x := by
  intro s
  rw [bind_of_ok (x := emit entries) (s := s) rfl]
  exact h _

/-- Neither is one before the program returns. -/
theorem Shadows.bind_emit {y : Prog (σ × List ω) ε α} {x : Prog σ ε α} (h : Shadows y x)
    {entries : α → List ω} :
    Shadows (y >>= fun a ↦ emit (entries a) >>= fun _ ↦ pure a) x := by
  intro s
  obtain ⟨hresult, hstore⟩ := h s
  rcases hy : y s with ⟨e | a, s₁⟩
  · rw [hy] at hresult hstore
    rw [bind_of_error hy]
    exact ⟨hresult, hstore⟩
  · rw [hy] at hresult hstore
    rw [bind_of_ok hy]
    exact ⟨hresult, hstore⟩

theorem Shadows.foldlM {g : β → α → Prog (σ × List ω) ε β} {f : β → α → Prog σ ε β}
    (h : ∀ b a, Shadows (g b a) (f b a)) (xs : List α) (b : β) :
    Shadows (xs.foldlM g b) (xs.foldlM f b) := by
  induction xs generalizing b with
  | nil => exact shadows_pure b
  | cons x xs ih =>
      rw [List.foldlM_cons, List.foldlM_cons]
      exact (h b x).bind ih

/-! ## Echoes -/

section Echo

variable (view : σ → List τ) (said : ω → List τ)

/-- From a state, the program announces what the view gains.  It leaves a store in `Q` where
it returns, and one in `E` where it fails. -/
def Echo (Q : α → σ → Prop) (E : σ → Prop) (y : Prog (σ × List ω) ε α) (s : σ × List ω) : Prop :=
  ∃ more, (y s).2.2 = s.2 ++ more ∧ view (y s).2.1 = view s.1 ++ more.flatMap said ∧
    match (y s).1 with
    | .ok a => Q a (y s).2.1
    | .error _ => E (y s).2.1

variable {view said} {Q : α → σ → Prop} {R : β → σ → Prop} {E : σ → Prop} {s : σ × List ω}

theorem echo_pure {a : α} (h : Q a s.1) :
    Echo view said Q E (pure a : Prog (σ × List ω) ε α) s :=
  ⟨[], (List.append_nil _).symm, (List.append_nil _).symm, h⟩

/-- A program that leaves the view alone need not announce anything. -/
theorem echo_beside {x : Prog σ ε α}
    (hok : ∀ a s₁, x s.1 = (.ok a, s₁) → view s₁ = view s.1 ∧ Q a s₁)
    (herror : ∀ e s₁, x s.1 = (.error e, s₁) → view s₁ = view s.1 ∧ E s₁) :
    Echo view said Q E (beside x) s := by
  rcases hx : x s.1 with ⟨e | a, s₁⟩
  · obtain ⟨hview, hE⟩ := herror e s₁ hx
    refine ⟨[], (List.append_nil _).symm, ?_, ?_⟩
    · rw [beside, hx, List.flatMap_nil, List.append_nil]
      exact hview
    · rw [beside, hx]
      exact hE
  · obtain ⟨hview, hQ⟩ := hok a s₁ hx
    refine ⟨[], (List.append_nil _).symm, ?_, ?_⟩
    · rw [beside, hx, List.flatMap_nil, List.append_nil]
      exact hview
    · rw [beside, hx]
      exact hQ

/-- An announcement that says nothing of the view. -/
theorem echo_emit {entries : List ω} {Q : Unit → σ → Prop} (h : entries.flatMap said = [])
    (hQ : Q () s.1) : Echo view said Q E (emit entries : Prog (σ × List ω) ε Unit) s :=
  ⟨entries, rfl, by rw [h, List.append_nil]; rfl, hQ⟩

/-- **Sequences.** -/
theorem Echo.bind {y : Prog (σ × List ω) ε α} {g : α → Prog (σ × List ω) ε β}
    (h : Echo view said Q E y s)
    (hg : ∀ a s₁, Q a s₁.1 → Echo view said R E (g a) s₁) : Echo view said R E (y >>= g) s := by
  obtain ⟨more, hlog, hview, hpost⟩ := h
  rcases hy : y s with ⟨e | a, s₁⟩
  · rw [hy] at hlog hview hpost
    rw [Echo, bind_of_error hy]
    exact ⟨more, hlog, hview, hpost⟩
  · rw [hy] at hlog hview hpost
    obtain ⟨more', hlog', hview', hpost'⟩ := hg a s₁ hpost
    rw [Echo, bind_of_ok hy]
    refine ⟨more ++ more', ?_, ?_, hpost'⟩
    · rw [hlog', hlog, List.append_assoc]
    · rw [hview', hview, List.flatMap_append, List.append_assoc]

/-- A commit and its announcement. -/
theorem echo_commit_emit {x : Prog σ ε α} {entries : α → List ω}
    {g : α → Prog (σ × List ω) ε β}
    (hok : ∀ a s₁, x s.1 = (.ok a, s₁) →
      view s₁ = view s.1 ++ (entries a).flatMap said ∧ Q a s₁)
    (herror : ∀ e s₁, x s.1 = (.error e, s₁) → view s₁ = view s.1 ∧ E s₁)
    (hg : ∀ a s₁, Q a s₁.1 → Echo view said R E (g a) s₁) :
    Echo view said R E (beside x >>= fun a ↦ emit (entries a) >>= fun _ ↦ g a) s := by
  rcases hx : x s.1 with ⟨e | a, s₁⟩
  · have hy : (beside x : Prog (σ × List ω) ε α) s = (.error e, s₁, s.2) := by
      rw [beside, hx]
    obtain ⟨hview, hE⟩ := herror e s₁ hx
    rw [Echo, bind_of_error hy]
    exact ⟨[], (List.append_nil _).symm, hview.trans (List.append_nil _).symm, hE⟩
  · have hy : (beside x : Prog (σ × List ω) ε α) s = (.ok a, s₁, s.2) := by
      rw [beside, hx]
    have hemit : (emit (entries a) : Prog (σ × List ω) ε Unit) (s₁, s.2) =
        (.ok (), s₁, s.2 ++ entries a) := rfl
    obtain ⟨hview, hQ⟩ := hok a s₁ hx
    obtain ⟨more, hlog', hview', hpost'⟩ := hg a (s₁, s.2 ++ entries a) hQ
    rw [Echo, bind_of_ok hy, bind_of_ok hemit]
    refine ⟨entries a ++ more, ?_, ?_, hpost'⟩
    · rw [hlog', List.append_assoc]
    · rw [hview', hview, List.flatMap_append, List.append_assoc]

/-- **Loops.**  What holds after a front of the list leads to what holds after one more. -/
theorem Echo.foldlM {f : β → α → Prog (σ × List ω) ε β} {I : List α → β → σ → Prop}
    {xs : List α}
    (hstep : ∀ front x rest, xs = front ++ x :: rest → ∀ b s, I front b s.1 →
      Echo view said (I (front ++ [x])) E (f b x) s) {b : β} (h : I [] b s.1) :
    Echo view said (I xs) E (xs.foldlM f b) s := by
  suffices hrest : ∀ rest front b s, xs = front ++ rest → I front b s.1 →
      Echo view said (I xs) E (rest.foldlM f b) s from hrest xs [] b s rfl h
  intro rest
  induction rest with
  | nil =>
      intro front b s hxs hI
      rw [hxs, List.append_nil]
      exact echo_pure hI
  | cons x rest ih =>
      intro front b s hxs hI
      rw [List.foldlM_cons]
      refine (hstep front x rest hxs b s hI).bind fun b' s₁ hI' ↦ ?_
      exact ih (front ++ [x]) b' s₁ (by rw [hxs, List.append_assoc]; rfl) hI'

end Echo

end Commits
