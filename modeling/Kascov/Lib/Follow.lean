import Mathlib.Tactic.Common
import Mathlib.Data.List.Basic
import Mathlib.Data.List.Perm.Subperm

/-!
# Following links until they end or close a cycle

A walk along a partial successor that remembers the keys of where it has been.
With more fuel than there are keys it always ends: at an element without a
successor, or just before one it has seen.
-/

universe u v

namespace Follow

variable {α : Type u} {κ : Type v} [DecidableEq κ] (key : α → κ) (next : α → Option α)

/-- The path from an element, and whether it came back to a key it had seen. -/
def follow : Nat → List κ → α → Option (List α × Bool)
  | 0, _, _ => none
  | fuel + 1, seen, a =>
      if key a ∈ seen then some ([], true)
      else
        match next a with
        | none => some ([a], false)
        | some b => (follow fuel (key a :: seen) b).map fun rest ↦ (a :: rest.1, rest.2)

/-- A path along the links, from its start to where it ended or closed. -/
structure Path (seen : List κ) (start : α) (path : List α) (closed : Bool) : Prop where
  head : path.head? = some start
  links : path.IsChain fun a b ↦ next a = some b
  last : ∃ a, path.getLast? = some a ∧ if closed = true
    then ∃ b, next a = some b ∧ key b ∈ path.map key ++ seen
    else next a = none

variable {key next} {seen : List κ} {fuel : Nat}

/-- **What a walk returns is a path.** -/
theorem path_of_follow {a : α} (ha : key a ∉ seen) {path : List α} {closed : Bool}
    (h : follow key next fuel seen a = some (path, closed)) :
    Path key next seen a path closed := by
  induction fuel generalizing seen a path closed with
  | zero => cases h
  | succ fuel ih =>
      rw [follow, if_neg ha] at h
      cases hnext : next a with
      | none =>
          rw [hnext] at h
          obtain ⟨rfl, rfl⟩ := Prod.mk.inj (Option.some.inj h)
          exact ⟨rfl, .singleton a, a, rfl, hnext⟩
      | some b =>
          rw [hnext] at h
          obtain ⟨⟨rest, closed'⟩, hrest, hpair⟩ := Option.map_eq_some_iff.mp h
          obtain ⟨rfl, rfl⟩ := Prod.mk.inj hpair
          by_cases hb : key b ∈ key a :: seen
          · cases fuel with
            | zero => cases hrest
            | succ fuel =>
                rw [follow, if_pos hb] at hrest
                obtain ⟨rfl, rfl⟩ := Prod.mk.inj (Option.some.inj hrest)
                exact ⟨rfl, .singleton a, a, rfl, b, hnext, hb⟩
          · obtain ⟨hhead, hlinks, last, hlast, hend⟩ := ih hb hrest
            obtain ⟨more, rfl⟩ := List.head?_eq_some_iff.mp hhead
            refine ⟨rfl, .cons_cons hnext hlinks, last, ?_, ?_⟩
            · rw [List.getLast?_cons_cons]
              exact hlast
            · cases closed' with
              | false => exact hend
              | true =>
                  obtain ⟨c, hc, hmem⟩ := hend
                  refine ⟨c, hc, ?_⟩
                  rw [List.map_cons, List.cons_append, List.mem_cons]
                  rcases List.mem_append.mp hmem with hmem | hmem
                  · exact .inr (List.mem_append_left _ hmem)
                  · rcases List.mem_cons.mp hmem with hmem | hmem
                    · exact .inl hmem
                    · exact .inr (List.mem_append_right _ hmem)

/-- **With fuel for every key the walk ends.** -/
theorem follow_isSome {P : α → Prop} {keys : List κ} (hkeys : ∀ a, P a → key a ∈ keys)
    (step : ∀ a b, P a → next a = some b → P b) {a : α} (ha : P a) (hseen : seen.Nodup)
    (hsub : seen ⊆ keys) (hfuel : keys.length < fuel + seen.length) :
    (follow key next fuel seen a).isSome := by
  induction fuel generalizing seen a with
  | zero =>
      have hle := (List.subperm_of_subset hseen hsub).length_le
      omega
  | succ fuel ih =>
      rw [follow]
      split
      · rfl
      · rename_i hnew
        cases hnext : next a with
        | none => rfl
        | some b =>
            rw [Option.isSome_map]
            refine ih (step a b ha hnext) (List.nodup_cons.mpr ⟨hnew, hseen⟩)
              (List.cons_subset.mpr ⟨hkeys a ha, hsub⟩) ?_
            rw [List.length_cons]
            omega

end Follow
