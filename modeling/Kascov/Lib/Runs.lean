import Mathlib.Tactic.Common

/-!
# Runs of transactions

A system whose state changes by transactions: each attempt either commits a new
state or fails and leaves the state as it was.  What every commit preserves
holds after any run; what a commit preserves only under a guard holds after any
run whose attempts are all made under that guard.
-/

universe u v w

namespace Runs

variable {σ : Type u} {ι : Type v} {ε : Type w}

/-- One attempt: a failed transaction changes nothing. -/
def attempt (commit : σ → ι → Except ε σ) (s : σ) (op : ι) : σ :=
  match commit s op with
  | .ok s' => s'
  | .error _ => s

/-- The state after a run of attempts. -/
def run (commit : σ → ι → Except ε σ) (s : σ) (ops : List ι) : σ :=
  ops.foldl (attempt commit) s

/-- Every attempt of the run is made in a state where the guard allows it. -/
def Guarded (commit : σ → ι → Except ε σ) (ok : σ → ι → Prop) : σ → List ι → Prop
  | _, [] => True
  | s, op :: ops => ok s op ∧ Guarded commit ok (attempt commit s op) ops

instance Guarded.decidable (commit : σ → ι → Except ε σ) (ok : σ → ι → Prop)
    [∀ s op, Decidable (ok s op)] : ∀ s ops, Decidable (Guarded commit ok s ops)
  | _, [] => .isTrue trivial
  | s, op :: ops =>
      have := Guarded.decidable commit ok (attempt commit s op) ops
      inferInstanceAs (Decidable (_ ∧ _))

variable {commit : σ → ι → Except ε σ}

@[simp] theorem run_nil (s : σ) : run commit s [] = s := rfl

@[simp] theorem run_cons (s : σ) (op : ι) (ops : List ι) :
    run commit s (op :: ops) = run commit (attempt commit s op) ops := rfl

theorem run_append (s : σ) (ops more : List ι) :
    run commit s (ops ++ more) = run commit (run commit s ops) more := by
  simp [run]

/-- An attempt keeps what every commit under its guard keeps. -/
theorem attempt_invariant {P : σ → Prop} {s : σ} {op : ι} (hs : P s)
    (step : ∀ s', commit s op = .ok s' → P s') : P (attempt commit s op) := by
  unfold attempt
  cases h : commit s op with
  | ok s' => exact step s' h
  | error e => exact hs

/-- **Invariants of guarded runs.** -/
theorem run_invariant_of_guarded (P : σ → Prop) (ok : σ → ι → Prop)
    (step : ∀ s op s', P s → ok s op → commit s op = .ok s' → P s') {s : σ} {ops : List ι}
    (hs : P s) (hok : Guarded commit ok s ops) : P (run commit s ops) := by
  induction ops generalizing s with
  | nil => exact hs
  | cons op ops ih =>
      exact ih (attempt_invariant hs fun s' ↦ step s op s' hs hok.1) hok.2

/-- **Invariants of runs.** -/
theorem run_invariant (P : σ → Prop)
    (step : ∀ s op s', P s → commit s op = .ok s' → P s') {s : σ} (ops : List ι) (hs : P s) :
    P (run commit s ops) := by
  induction ops generalizing s with
  | nil => exact hs
  | cons op ops ih => exact ih (attempt_invariant hs fun s' ↦ step s op s' hs)

/-- A relation that composes and that every commit respects relates the ends of
a run. -/
theorem run_rel (R : σ → σ → Prop) (refl : ∀ s, R s s)
    (trans : ∀ {a b c}, R a b → R b c → R a c)
    (step : ∀ s op s', commit s op = .ok s' → R s s') (s : σ) (ops : List ι) :
    R s (run commit s ops) :=
  run_invariant (R s) (fun _ op c' hc hcommit ↦ trans hc (step _ op c' hcommit)) ops (refl s)

/-- A guard that reads the attempt only. -/
theorem guarded_of_forall {ok : ι → Prop} {s : σ} {ops : List ι} (h : ∀ op ∈ ops, ok op) :
    Guarded commit (fun _ op ↦ ok op) s ops := by
  induction ops generalizing s with
  | nil => trivial
  | cons op ops ih =>
      obtain ⟨hop, hops⟩ := List.forall_mem_cons.mp h
      exact ⟨hop, ih hops⟩

theorem Guarded.and {ok ok' : σ → ι → Prop} {s : σ} {ops : List ι} (h : Guarded commit ok s ops)
    (h' : Guarded commit ok' s ops) : Guarded commit (fun s op ↦ ok s op ∧ ok' s op) s ops := by
  induction ops generalizing s with
  | nil => trivial
  | cons op ops ih => exact ⟨⟨h.1, h'.1⟩, ih h.2 h'.2⟩

end Runs
