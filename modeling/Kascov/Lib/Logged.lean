import Mathlib.Tactic.Common
import Mathlib.Data.List.Basic

/-!
# Programs that log

A program over a state that it writes and does not read: its value is the same from every
state.  The value and what holds of the state in the end are found part by part.
-/

universe u

namespace Logged

variable {σ α β : Type u}

/-- The program gives a value, whatever the state. -/
def Gives (x : StateM σ α) (a : α) : Prop := ∀ s, (x.run s).1 = a

/-- The program ends in a state with a property. -/
def Ends (x : StateM σ α) (P : σ → Prop) : Prop := ∀ s, P (x.run s).2

variable {x : StateM σ α} {f : α → StateM σ β} {a : α} {b : β} {P : σ → Prop}

theorem gives_pure (a : α) : Gives (pure a : StateM σ α) a := fun _ ↦ rfl

theorem gives_modify (g : σ → σ) : Gives (modify g : StateM σ PUnit) ⟨⟩ := fun _ ↦ rfl

theorem Gives.bind (hx : Gives x a) (hf : Gives (f a) b) : Gives (x >>= f) b := by
  intro s
  change ((f (x.run s).1).run (x.run s).2).1 = b
  rw [hx s]
  exact hf _

/-- A log on the way does not change the value. -/
theorem Gives.after {x : StateM σ PUnit} {y : StateM σ β} (hy : Gives y b) :
    Gives (x >>= fun _ ↦ y) b := fun _ ↦ hy _

theorem Gives.ends (hx : Gives x a) (hf : Ends (f a) P) : Ends (x >>= f) P := by
  intro s
  change P ((f (x.run s).1).run (x.run s).2).2
  rw [hx s]
  exact hf _

theorem Ends.after {x : StateM σ PUnit} {y : StateM σ β} (hy : Ends y P) :
    Ends (x >>= fun _ ↦ y) P := fun _ ↦ hy _

theorem Ends.pure_after {x : StateM σ PUnit} (hx : Ends x P) (b : β) :
    Ends (x >>= fun _ ↦ pure b) P := hx

theorem ends_modify {g : σ → σ} (h : ∀ s, P (g s)) : Ends (modify g : StateM σ PUnit) P := h

/-- A program over the items of a list. -/
theorem gives_mapM {ι : Type u} {g : ι → StateM σ β} {v : ι → β} (l : List ι)
    (h : ∀ i ∈ l, Gives (g i) (v i)) : Gives (l.mapM g) (l.map v) := by
  induction l with
  | nil => exact gives_pure []
  | cons i l ih =>
      rw [List.mapM_cons]
      obtain ⟨hi, hl⟩ := List.forall_mem_cons.mp h
      exact hi.bind ((ih hl).bind (gives_pure _))

end Logged
