import Mathlib.Tactic.Common
import Mathlib.Data.List.Basic

/-!
# Cursors

A place in a list that is read from the front.  The place never leaves the list, and a
read is the relation between two places and what lies between them, so that reads one
after another are one read of what they read together.
-/

universe u

/-- A place in a list. -/
structure Cursor (β : Type u) where
  input : List β
  offset : Nat
  inBounds : offset ≤ input.length

namespace Cursor

variable {β : Type u}

/-- The front of a list. -/
def start (input : List β) : Cursor β := ⟨input, 0, input.length.zero_le⟩

/-- What is left to read. -/
def rest (c : Cursor β) : List β := c.input.drop c.offset

/-- The next elements, and the place after them. -/
def take (c : Cursor β) (n : Nat) : Option (List β × Cursor β) :=
  if h : c.offset + n ≤ c.input.length then some (c.rest.take n, ⟨c.input, c.offset + n, h⟩)
  else none

/-- Everything is read. -/
def done (c : Cursor β) : Bool := c.offset == c.input.length

/-- What lies between two places of one list. -/
def Reads (c : Cursor β) (w : List β) (c' : Cursor β) : Prop :=
  c'.input = c.input ∧ c.rest = w ++ c'.rest

variable {c c₁ c₂ : Cursor β} {v w : List β}

@[simp] theorem rest_start (input : List β) : (start input).rest = input := rfl

theorem length_rest (c : Cursor β) : c.rest.length = c.input.length - c.offset :=
  List.length_drop

theorem done_iff : c.done = true ↔ c.rest = [] := by
  have hle := c.inBounds
  rw [done, beq_iff_eq, ← List.length_eq_zero_iff, length_rest]
  omega

theorem Reads.offset_eq (h : c.Reads w c₁) : c₁.offset = c.offset + w.length := by
  have hlen := congrArg List.length h.2
  have hle := c.inBounds
  have hle₁ := c₁.inBounds
  rw [List.length_append, length_rest, length_rest, h.1] at hlen
  rw [h.1] at hle₁
  omega

theorem ext_offset (hinput : c₁.input = c₂.input) (hoffset : c₁.offset = c₂.offset) : c₁ = c₂ := by
  obtain ⟨input, offset, h⟩ := c₁
  obtain rfl : input = c₂.input := hinput
  obtain rfl : offset = c₂.offset := hoffset
  rfl

theorem Reads.unique (h₁ : c.Reads w c₁) (h₂ : c.Reads w c₂) : c₁ = c₂ :=
  ext_offset (h₁.1.trans h₂.1.symm) (h₁.offset_eq.trans h₂.offset_eq.symm)

@[simp] theorem reads_nil : c.Reads [] c₁ ↔ c₁ = c := by
  constructor
  · intro h
    exact ext_offset h.1 h.offset_eq
  · rintro rfl
    exact ⟨rfl, rfl⟩

/-- Where a read of what comes next leads. -/
theorem exists_reads {s : List β} (h : c.rest = w ++ s) : ∃ c₁, c.Reads w c₁ ∧ c₁.rest = s := by
  have hlen := congrArg List.length h
  have hle := c.inBounds
  rw [List.length_append, length_rest] at hlen
  have hdrop : c.input.drop (c.offset + w.length) = s := by
    rw [← List.drop_drop]
    change c.rest.drop w.length = s
    rw [h, List.drop_left]
  exact ⟨⟨c.input, c.offset + w.length, by omega⟩, ⟨rfl, h.trans (congrArg (w ++ ·) hdrop.symm)⟩,
    hdrop⟩

/-- Reads one after another. -/
theorem reads_append : c.Reads (v ++ w) c₂ ↔ ∃ c₁, c.Reads v c₁ ∧ c₁.Reads w c₂ := by
  constructor
  · intro h
    obtain ⟨c₁, hv, hrest⟩ := exists_reads (h.2.trans (List.append_assoc v w c₂.rest))
    exact ⟨c₁, hv, h.1.trans hv.1.symm, hrest⟩
  · rintro ⟨c₁, hv, hw⟩
    refine ⟨hw.1.trans hv.1, ?_⟩
    rw [hv.2, hw.2, List.append_assoc]

theorem take_eq_some {n : Nat} : c.take n = some (v, c₁) ↔ v.length = n ∧ c.Reads v c₁ := by
  unfold take
  constructor
  · intro h
    split at h
    · rename_i hle
      obtain ⟨rfl, rfl⟩ := Prod.mk.inj (Option.some.inj h)
      refine ⟨?_, rfl, ?_⟩
      · rw [List.length_take, length_rest]
        omega
      · have hdrop : c.input.drop (c.offset + n) = c.rest.drop n := List.drop_drop.symm
        exact (List.take_append_drop n c.rest).symm.trans (congrArg (c.rest.take n ++ ·) hdrop.symm)
    · cases h
  · rintro ⟨rfl, h⟩
    have hlen := congrArg List.length h.2
    have hbounds := c.inBounds
    rw [List.length_append, length_rest] at hlen
    have hle : c.offset + v.length ≤ c.input.length := by
      omega
    rw [dif_pos hle, h.2, List.take_left]
    exact congrArg (fun c' ↦ some (v, c')) (ext_offset h.1.symm h.offset_eq.symm)

/-- A read from the front to the end reads the whole list. -/
theorem start_reads_done {s : List β} :
    (∃ c₁, (start s).Reads w c₁ ∧ c₁.done = true) ↔ w = s := by
  constructor
  · rintro ⟨c₁, h, hdone⟩
    have hs := h.2
    rw [done_iff.mp hdone, List.append_nil] at hs
    exact hs.symm
  · rintro rfl
    obtain ⟨c₁, h, hrest⟩ := exists_reads (c := start w) (List.append_nil w).symm
    exact ⟨c₁, h, done_iff.mpr hrest⟩

end Cursor
