import Mathlib.Tactic.Common
import Mathlib.Data.Nat.Basic

/-!
# Prefix codecs

A writer of values and a reader of one value from the front of its input, which also
says how much it read.  A reader that accepts what the writer writes and nothing else
gives every value one encoding, and reads back every sequence of them.
-/

universe u v

namespace PrefixCodec

variable {α : Type u} {β : Type v} {write : α → List β}
  {read : List β → Option (α × Nat)} {Good : α → Prop}

/-- The reader accepts what the writer writes of good values, and nothing else. -/
structure Exact (write : α → List β) (read : List β → Option (α × Nat)) (Good : α → Prop) :
    Prop where
  reads : ∀ a rest, Good a → read (write a ++ rest) = some (a, (write a).length)
  written : ∀ s a n, read s = some (a, n) →
    Good a ∧ ∃ rest, s = write a ++ rest ∧ n = (write a).length
  nonempty : ∀ a, write a ≠ []

/-- Read to the end. -/
def readAll (read : List β → Option (α × Nat)) : Nat → List β → Option (List α)
  | _, [] => some []
  | 0, _ :: _ => none
  | fuel + 1, x :: s =>
      match read (x :: s) with
      | none => none
      | some (a, n) => (readAll read fuel ((x :: s).drop n)).map (a :: ·)

/-- Every value has one encoding. -/
theorem Exact.unique (h : Exact write read Good) {a : α} {s : List β} :
    read s = some (a, s.length) ↔ Good a ∧ s = write a := by
  constructor
  · intro hs
    obtain ⟨hgood, rest, rfl, hlen⟩ := h.written s a _ hs
    rw [List.length_append] at hlen
    have hrest : rest = [] := List.length_eq_zero_iff.mp (by omega)
    rw [hrest, List.append_nil]
    exact ⟨hgood, rfl⟩
  · rintro ⟨hgood, rfl⟩
    have hs := h.reads a [] hgood
    rwa [List.append_nil] at hs

theorem Exact.length_pos (h : Exact write read Good) (a : α) : 0 < (write a).length :=
  List.length_pos_iff.mpr (h.nonempty a)

theorem Exact.readAll_flatMap (h : Exact write read Good) {as : List α}
    (hgood : ∀ a ∈ as, Good a) : ∀ fuel, (as.flatMap write).length ≤ fuel →
      readAll read fuel (as.flatMap write) = some as := by
  induction as with
  | nil =>
      intro fuel _
      cases fuel with
      | zero => rfl
      | succ fuel => rfl
  | cons a as ih =>
      intro fuel hfuel
      rw [List.flatMap_cons, List.length_append] at hfuel
      have hpos := h.length_pos a
      obtain ⟨fuel, rfl⟩ := Nat.exists_eq_succ_of_ne_zero (by omega : fuel ≠ 0)
      have htail := ih (fun b hb ↦ hgood b (List.mem_cons_of_mem _ hb)) fuel (by omega)
      have hread := h.reads a (as.flatMap write) (hgood a List.mem_cons_self)
      rw [List.flatMap_cons]
      obtain ⟨x, s, hs⟩ := List.exists_cons_of_ne_nil (h.nonempty a)
      rw [hs, List.cons_append] at hread ⊢
      rw [readAll, hread]
      dsimp only
      rw [← List.cons_append, List.drop_left, htail]
      rfl

theorem Exact.readAll_written (h : Exact write read Good) {fuel : Nat} {s : List β}
    {as : List α} (hs : readAll read fuel s = some as) :
    (∀ a ∈ as, Good a) ∧ s = as.flatMap write := by
  induction fuel generalizing s as with
  | zero =>
      cases s with
      | nil =>
          obtain rfl := Option.some.inj hs
          exact ⟨fun _ ha ↦ absurd ha List.not_mem_nil, rfl⟩
      | cons x s => cases hs
  | succ fuel ih =>
      cases s with
      | nil =>
          obtain rfl := Option.some.inj hs
          exact ⟨fun _ ha ↦ absurd ha List.not_mem_nil, rfl⟩
      | cons x s =>
          rw [readAll] at hs
          split at hs
          · cases hs
          · rename_i a n hread
            obtain ⟨as', has', rfl⟩ := Option.map_eq_some_iff.mp hs
            obtain ⟨hgood, rest, hrest, rfl⟩ := h.written _ a n hread
            rw [hrest, List.drop_left] at has'
            obtain ⟨hgoods, rfl⟩ := ih has'
            exact ⟨List.forall_mem_cons.mpr ⟨hgood, hgoods⟩, hrest⟩

end PrefixCodec
