import Mathlib.Data.List.Basic

/-!
# Bindings

A list of keys with values, grown by one entry at a time: a key that is bound must be
bound to the same value again.  Growing succeeds exactly when no key has two values,
and what it finds is what the entries, read in order, bind first.
-/

universe u v

namespace Bindings

variable {κ : Type u} {ν : Type v}

/-- No key has two values. -/
def Functional (l : List (κ × ν)) : Prop := ∀ k u v, (k, u) ∈ l → (k, v) ∈ l → u = v

theorem functional_nil : Functional ([] : List (κ × ν)) :=
  fun _ _ _ h ↦ absurd h List.not_mem_nil

theorem Functional.congr {l l' : List (κ × ν)} (h : ∀ e, e ∈ l ↔ e ∈ l') :
    Functional l ↔ Functional l' := by
  simp only [Functional, h]

theorem Functional.of_append_left {l l' : List (κ × ν)} (h : Functional (l ++ l')) :
    Functional l :=
  fun k u v hu hv ↦ h k u v (List.mem_append_left l' hu) (List.mem_append_left l' hv)

variable [DecidableEq κ]

/-- The entry that a key is bound by. -/
def find (l : List (κ × ν)) (k : κ) : Option (κ × ν) := l.find? (·.1 = k)

theorem find_append (l l' : List (κ × ν)) (k : κ) :
    find (l ++ l') k = (find l k).or (find l' k) := List.find?_append

theorem find_eq_some {l : List (κ × ν)} {k : κ} {e : κ × ν} (h : find l k = some e) :
    e ∈ l ∧ e.1 = k :=
  ⟨List.mem_of_find?_eq_some h, by simpa using List.find?_some h⟩

theorem find_eq_none {l : List (κ × ν)} {k : κ} : find l k = none ↔ ∀ v, (k, v) ∉ l := by
  constructor
  · intro h v hv
    exact absurd (List.find?_eq_none.mp h _ hv) (by simp)
  · intro h
    refine List.find?_eq_none.mpr fun e he ↦ ?_
    rw [decide_eq_true_iff]
    rintro rfl
    exact h e.2 he

/-- In bindings without two values for a key, every entry is found. -/
theorem Functional.find_of_mem {l : List (κ × ν)} (h : Functional l) {k : κ} {v : ν}
    (hmem : (k, v) ∈ l) : find l k = some (k, v) := by
  cases hfind : find l k with
  | none => exact absurd hmem (find_eq_none.mp hfind v)
  | some e =>
      obtain ⟨k', v'⟩ := e
      obtain ⟨hmem', rfl⟩ := find_eq_some hfind
      rw [h k' v' v hmem' hmem]

variable [DecidableEq ν]

/-- Bind a key. -/
def bindOne (l : List (κ × ν)) (e : κ × ν) : Option (List (κ × ν)) :=
  match find l e.1 with
  | some prev => if prev.2 = e.2 then some l else none
  | none => some (l ++ [e])

/-- Bind entries one after another. -/
def bindAll : List (κ × ν) → List (κ × ν) → Option (List (κ × ν))
  | [], l => some l
  | e :: es, l => (bindOne l e).bind (bindAll es)

theorem bindOne_eq_some {l l' : List (κ × ν)} {e : κ × ν} (h : bindOne l e = some l') :
    (∀ k, find l' k = find (l ++ [e]) k) ∧ ∀ x, x ∈ l' ↔ x ∈ l ++ [e] := by
  unfold bindOne at h
  split at h
  · rename_i prev hprev
    split at h
    · rename_i hvalue
      obtain rfl := Option.some.inj h
      obtain ⟨hmem, hkey⟩ := find_eq_some hprev
      have he : prev = e := Prod.ext hkey hvalue
      refine ⟨fun k ↦ ?_, fun x ↦ ?_⟩
      · rw [find_append]
        cases hk : find l k with
        | some found => rfl
        | none =>
            have hne : e.1 ≠ k := by
              rintro rfl
              rw [hprev] at hk
              cases hk
            simp [find, hne]
      · rw [List.mem_append, List.mem_singleton]
        refine ⟨.inl, ?_⟩
        rintro (hx | rfl)
        · exact hx
        · rwa [← he]
    · cases h
  · obtain rfl := Option.some.inj h
    exact ⟨fun _ ↦ rfl, fun _ ↦ Iff.rfl⟩

theorem bindOne_isSome {l : List (κ × ν)} (hl : Functional l) {e : κ × ν} :
    (bindOne l e).isSome = true ↔ Functional (l ++ [e]) := by
  constructor
  · intro h
    obtain ⟨l', hl'⟩ := Option.isSome_iff_exists.mp h
    unfold bindOne at hl'
    split at hl'
    · rename_i prev hprev
      split at hl'
      · rename_i hvalue
        obtain rfl := Option.some.inj hl'
        obtain ⟨hmem, hkey⟩ := find_eq_some hprev
        have he : prev = e := Prod.ext hkey hvalue
        refine (Functional.congr fun x ↦ ?_).mp hl
        rw [List.mem_append, List.mem_singleton]
        refine ⟨.inl, ?_⟩
        rintro (hx | rfl)
        · exact hx
        · rwa [← he]
      · cases hl'
    · rename_i hfree
      intro k u v hu hv
      have hfree' := find_eq_none.mp hfree
      rw [List.mem_append, List.mem_singleton] at hu hv
      rcases hu with hu | hu
      · rcases hv with hv | hv
        · exact hl k u v hu hv
        · rw [← hv] at hfree'
          exact absurd hu (hfree' u)
      · rcases hv with hv | hv
        · rw [← hu] at hfree'
          exact absurd hv (hfree' v)
        · rw [← hv] at hu
          exact (Prod.mk.inj hu).2
  · intro h
    unfold bindOne
    split
    · rename_i prev hprev
      obtain ⟨hmem, hkey⟩ := find_eq_some hprev
      have hvalue : prev.2 = e.2 := by
        refine h e.1 _ _ (List.mem_append_left _ ?_) (List.mem_append_right _ ?_)
        · rwa [← hkey]
        · exact List.mem_singleton_self e
      rw [if_pos hvalue]
      rfl
    · rfl

/-- Binding entries finds what the entries bind first. -/
theorem bindAll_eq_some {es l l' : List (κ × ν)} (h : bindAll es l = some l') :
    (∀ k, find l' k = find (l ++ es) k) ∧ ∀ x, x ∈ l' ↔ x ∈ l ++ es := by
  induction es generalizing l with
  | nil =>
      obtain rfl := Option.some.inj h
      rw [List.append_nil]
      exact ⟨fun _ ↦ rfl, fun _ ↦ Iff.rfl⟩
  | cons e es ih =>
      obtain ⟨mid, hmid, hrest⟩ := Option.bind_eq_some_iff.mp h
      obtain ⟨hfind, hmem⟩ := bindOne_eq_some hmid
      obtain ⟨hfind', hmem'⟩ := ih hrest
      refine ⟨fun k ↦ ?_, fun x ↦ ?_⟩
      · rw [hfind', find_append, hfind, ← find_append, List.append_assoc, List.singleton_append]
      · rw [hmem', List.mem_append, hmem, ← List.mem_append, List.append_assoc,
          List.singleton_append]

/-- Binding entries succeeds exactly when no key has two values. -/
theorem bindAll_isSome {es l : List (κ × ν)} (hl : Functional l) :
    (bindAll es l).isSome = true ↔ Functional (l ++ es) := by
  induction es generalizing l with
  | nil =>
      rw [List.append_nil]
      exact ⟨fun _ ↦ hl, fun _ ↦ rfl⟩
  | cons e es ih =>
      have happend : l ++ e :: es = l ++ [e] ++ es := by
        rw [List.append_assoc, List.singleton_append]
      rw [bindAll]
      cases hone : bindOne l e with
      | none =>
          refine ⟨nofun, fun h ↦ ?_⟩
          rw [happend] at h
          have hsome := (bindOne_isSome hl).mpr h.of_append_left
          rw [hone] at hsome
          cases hsome
      | some mid =>
          have hmid : Functional (l ++ [e]) := (bindOne_isSome hl).mp (by rw [hone]; rfl)
          have hmem := (bindOne_eq_some hone).2
          rw [Option.bind_some, ih ((Functional.congr hmem).mpr hmid), happend]
          refine Functional.congr fun x ↦ ?_
          rw [List.mem_append, hmem, ← List.mem_append]

end Bindings
