import Mathlib.Tactic.Common
import Mathlib.Data.List.Induction

/-!
# Append-only logs with cancellation

A log whose entries may *add* something under an identifier and may *cancel* an
identifier added before.  Nothing is ever erased: what a log says now is the
list of its `live` entries, the additions no later entry cancels.

A reader that folds the log, keeping the items of each addition and dropping
those of each cancelled one, holds exactly the items of the live entries
(`replay_eq_live`), as long as no identifier is cancelled before it is added.
-/

universe u v w

namespace CancelLog

variable {ε : Type u} {ι : Type v} {κ : Type w} [DecidableEq ι]

/-- How the entries of a log are read. -/
structure Reading (ε : Type u) (ι : Type v) where
  /-- The identifier of an entry. -/
  id : ε → ι
  /-- Does the entry add its items? -/
  adds : ε → Bool
  /-- The identifier the entry cancels, if it does. -/
  cancels : ε → Option ι

variable (R : Reading ε ι)

/-- Does some entry of the log cancel `i`? -/
def cancelled (log : List ε) (i : ι) : Bool :=
  log.any fun e ↦ R.cancels e = some i

/-- The additions of a log that nothing in it cancels. -/
def live (log : List ε) : List ε :=
  log.filter fun e ↦ R.adds e && !cancelled R log (R.id e)

@[simp] theorem cancelled_nil (i : ι) : cancelled R [] i = false := rfl

@[simp] theorem live_nil : live R [] = [] := rfl

@[simp] theorem cancelled_append (log new : List ε) (i : ι) :
    cancelled R (log ++ new) i = (cancelled R log i || cancelled R new i) := by
  simp [cancelled]

theorem cancelled_eq_true {log : List ε} {i : ι} :
    cancelled R log i = true ↔ ∃ e ∈ log, R.cancels e = some i := by
  simp [cancelled]

theorem cancelled_eq_false {log : List ε} (h : ∀ e ∈ log, R.cancels e = none) (i : ι) :
    cancelled R log i = false := by
  simp only [cancelled, List.any_eq_false, decide_eq_true_eq]
  intro e he hc
  simp [h e he] at hc

theorem mem_live {log : List ε} {e : ε} :
    e ∈ live R log ↔ e ∈ log ∧ R.adds e = true ∧ cancelled R log (R.id e) = false := by
  simp [live]

/-- Entries that cancel nothing extend the live list by their additions, when
the log did not cancel these already. -/
theorem live_append {log new : List ε} (hnew : ∀ e ∈ new, R.cancels e = none)
    (hfresh : ∀ e ∈ new, R.adds e = true → cancelled R log (R.id e) = false) :
    live R (log ++ new) = live R log ++ new.filter R.adds := by
  have hc : ∀ i, cancelled R new i = false := cancelled_eq_false R hnew
  rw [live, List.filter_append]
  congr 1
  · refine List.filter_congr fun e _ ↦ ?_
    simp [hc]
  · refine List.filter_congr fun e he ↦ ?_
    cases hadd : R.adds e with
    | false => simp
    | true => simp [hc, hfresh e he hadd]

/-- Entries that add nothing only take the entries they cancel off the live
list. -/
theorem live_append_cancels {log new : List ε} (hnew : ∀ e ∈ new, R.adds e = false) :
    live R (log ++ new) = (live R log).filter fun e ↦ !cancelled R new (R.id e) := by
  have hno : new.filter (fun e ↦ R.adds e && !cancelled R (log ++ new) (R.id e)) = [] := by
    rw [List.filter_eq_nil_iff]
    intro e he
    simp [hnew e he]
  rw [live, List.filter_append, hno, List.append_nil, live, List.filter_filter]
  refine List.filter_congr fun e _ ↦ ?_
  rw [cancelled_append]
  cases R.adds e <;> cases cancelled R log (R.id e) <;> cases cancelled R new (R.id e) <;> rfl

/-- One more entry: what it cancels goes, and it joins if it adds and nothing
cancels it. -/
theorem live_concat (log : List ε) (e : ε) :
    live R (log ++ [e]) =
      (live R log).filter (fun a ↦ R.cancels e ≠ some (R.id a)) ++
        if R.adds e && !cancelled R (log ++ [e]) (R.id e) then [e] else [] := by
  rw [live, List.filter_append, List.filter_cons, List.filter_nil, live, List.filter_filter]
  congr 1
  refine List.filter_congr fun a _ ↦ ?_
  by_cases hc : R.cancels e = some (R.id a)
  · simp [cancelled, hc]
  · simp [cancelled, hc]

/-! ## Reading a log -/

omit [DecidableEq ι] in
/-- Dropping elements before a `flatMap` is mapping them to nothing. -/
theorem flatMap_filter {α : Type u} {β : Type v} (p : α → Bool) (f : α → List β)
    (xs : List α) : (xs.filter p).flatMap f = xs.flatMap fun x ↦ if p x then f x else [] := by
  induction xs with
  | nil => rfl
  | cons x xs ih => cases hp : p x <;> simp [hp, ih]

variable (items : ε → List κ)

/-- One step of a reader: drop what the entry cancels, keep what it adds. -/
def replayStep (acc : List (ι × κ)) (e : ε) : List (ι × κ) :=
  acc.filter (fun p ↦ R.cancels e ≠ some p.1) ++
    if R.adds e then (items e).map fun k ↦ (R.id e, k) else []

/-- What a reader of the whole log from its start holds at the end. -/
def replay (log : List ε) : List (ι × κ) :=
  log.foldl (replayStep R items) []

@[simp] theorem replay_nil : replay R items [] = [] := rfl

@[simp] theorem replay_concat (log : List ε) (e : ε) :
    replay R items (log ++ [e]) = replayStep R items (replay R items log) e := by
  simp [replay]

/-- No identifier is cancelled before it is added, nor by the entry that adds
it. -/
def Ordered (log : List ε) : Prop :=
  ∀ pre e post, log = pre ++ e :: post → R.adds e = true →
    cancelled R (pre ++ [e]) (R.id e) = false

theorem Ordered.of_append {log new : List ε} (h : Ordered R (log ++ new)) : Ordered R log := by
  intro pre e post heq hadd
  exact h pre e (post ++ new) (by simp [heq]) hadd

/-- **A reader holds the live items.** -/
theorem replay_eq_live {log : List ε} (h : Ordered R log) :
    replay R items log =
      (live R log).flatMap fun e ↦ (items e).map fun k ↦ (R.id e, k) := by
  induction log using List.reverseRecOn with
  | nil => rfl
  | append_singleton log e ih =>
      rw [replay_concat, ih (h.of_append R), replayStep, live_concat, List.flatMap_append]
      congr 1
      · -- entries already in the log: the new entry drops what it cancels
        rw [List.filter_flatMap, flatMap_filter]
        refine congrArg (List.flatMap · (live R log)) (funext fun a ↦ ?_)
        by_cases hc : R.cancels e = some (R.id a)
        · simp [List.filter_map, Function.comp_def, hc]
        · rw [if_pos (by simpa using hc), List.filter_eq_self.mpr]
          intro p hp
          obtain ⟨k, _, rfl⟩ := List.mem_map.mp hp
          simpa using hc
      · -- the new entry itself: nothing cancels it yet
        cases hadd : R.adds e with
        | false => simp
        | true => simp [h log e [] rfl hadd]

end CancelLog
