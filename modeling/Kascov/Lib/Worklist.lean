import Mathlib.Tactic.Common
import Mathlib.Data.List.Basic

/-!
# Draining a worklist in batches

The work left is read off the state as a list, and a step takes its first item: the
list of the state after it is the rest.  Then it does not matter where a run is cut
into batches: the batches do, in order, what one batch of their total size does.
-/

universe u v

namespace Worklist

variable {σ : Type u} {α : Type v}

/-- Each step takes the first item off the work left, in the states it can reach. -/
structure Consumes (good : σ → Prop) (pending : σ → List α) (step : σ → α → σ) : Prop where
  keeps : ∀ s a rest, good s → pending s = a :: rest → good (step s a)
  takes : ∀ s a rest, good s → pending s = a :: rest → pending (step s a) = rest

/-- A batch of at most `n` items. -/
def drain (pending : σ → List α) (step : σ → α → σ) (n : Nat) (s : σ) : σ :=
  ((pending s).take n).foldl step s

variable {good : σ → Prop} {pending : σ → List α} {step : σ → α → σ} {s : σ}

@[simp] theorem drain_zero (s : σ) : drain pending step 0 s = s := rfl

theorem drain_nil (h : pending s = []) (n : Nat) : drain pending step n s = s := by
  rw [drain, h, List.take_nil, List.foldl_nil]

/-- A batch larger than the work left does all of it. -/
theorem drain_of_le {n : Nat} (h : (pending s).length ≤ n) :
    drain pending step n s = (pending s).foldl step s := by
  rw [drain, List.take_of_length_le h]

namespace Consumes

variable (hc : Consumes good pending step)
include hc

/-- A batch that is not empty takes one step and goes on. -/
theorem drain_succ (hs : good s) {a : α} {rest : List α} (h : pending s = a :: rest) (n : Nat) :
    drain pending step (n + 1) s = drain pending step n (step s a) := by
  rw [drain, drain, h, hc.takes s a rest hs h, List.take_succ_cons, List.foldl_cons]

theorem good_drain (hs : good s) (n : Nat) : good (drain pending step n s) := by
  induction n generalizing s with
  | zero => exact hs
  | succ n ih =>
      cases h : pending s with
      | nil => rwa [drain_nil h]
      | cons a rest =>
          rw [hc.drain_succ hs h]
          exact ih (hc.keeps s a rest hs h)

/-- What a batch leaves. -/
theorem pending_drain (hs : good s) (n : Nat) :
    pending (drain pending step n s) = (pending s).drop n := by
  induction n generalizing s with
  | zero => rw [drain_zero, List.drop_zero]
  | succ n ih =>
      cases h : pending s with
      | nil => rw [drain_nil h, h, List.drop_nil]
      | cons a rest =>
          rw [hc.drain_succ hs h, ih (hc.keeps s a rest hs h), hc.takes s a rest hs h,
            List.drop_succ_cons]

/-- Two batches are one. -/
theorem drain_drain (hs : good s) (m n : Nat) :
    drain pending step n (drain pending step m s) = drain pending step (m + n) s := by
  induction m generalizing s with
  | zero => rw [drain_zero, Nat.zero_add]
  | succ m ih =>
      cases h : pending s with
      | nil => rw [drain_nil h, drain_nil h, drain_nil h]
      | cons a rest =>
          rw [hc.drain_succ hs h, ih (hc.keeps s a rest hs h), Nat.succ_add_eq_add_succ,
            Nat.add_succ, hc.drain_succ hs h]

end Consumes

end Worklist
