import Mathlib.Tactic.Common
import Mathlib.Data.List.Nodup

/-!
# Maps that remember when a key came

A map whose keys stand in the order in which they came: a key that is there keeps its
place when it is set again, and a map that is too large drops the keys that came first.
-/

universe u v

/-- A map in the order of its keys. -/
structure InsertionMap (κ : Type u) (ν : Type v) where
  entries : List (κ × ν) := []
  distinct : (entries.map Prod.fst).Nodup := by exact List.nodup_nil

namespace InsertionMap

variable {κ : Type u} {ν : Type v} [DecidableEq κ]

def get? (m : InsertionMap κ ν) (k : κ) : Option ν := m.entries.lookup k

def size (m : InsertionMap κ ν) : Nat := m.entries.length

/-- The map without a key. -/
def erase (m : InsertionMap κ ν) (k : κ) : InsertionMap κ ν :=
  ⟨m.entries.filter (·.1 ≠ k), m.distinct.sublist (List.filter_sublist.map _)⟩

theorem setList_distinct (m : InsertionMap κ ν) (k : κ) (v : ν) :
    ((if k ∈ m.entries.map Prod.fst then m.entries.map fun e ↦ if e.1 = k then (k, v) else e
      else m.entries ++ [(k, v)]).map Prod.fst).Nodup := by
  split
  · rw [List.map_map]
    refine (List.map_congr_left fun e _ ↦ ?_).symm ▸ m.distinct
    rw [Function.comp_apply]
    split
    · exact Eq.symm ‹_›
    · rfl
  · rename_i hk
    rw [List.map_append, List.map_singleton]
    exact m.distinct.append (List.nodup_singleton _) (List.disjoint_singleton.mpr hk)

/-- The map with a value for a key: in its place, or at the end. -/
def set (m : InsertionMap κ ν) (k : κ) (v : ν) : InsertionMap κ ν :=
  ⟨if k ∈ m.entries.map Prod.fst then m.entries.map fun e ↦ if e.1 = k then (k, v) else e
    else m.entries ++ [(k, v)], setList_distinct m k v⟩

/-- The keys that come last, as many as there may be. -/
def trim (m : InsertionMap κ ν) (cap : Nat) : InsertionMap κ ν :=
  ⟨m.entries.drop (m.size - cap), m.distinct.sublist ((List.drop_sublist _ _).map _)⟩

/-- The entries that satisfy a predicate. -/
def filter (m : InsertionMap κ ν) (p : κ → ν → Bool) : InsertionMap κ ν :=
  ⟨m.entries.filter fun e ↦ p e.1 e.2, m.distinct.sublist (List.filter_sublist.map _)⟩

variable {m : InsertionMap κ ν} {k j : κ} {v w : ν}

theorem get?_eq_some_iff : m.get? k = some v ↔ (k, v) ∈ m.entries := by
  constructor
  · intro h
    obtain ⟨front, back, heq, -⟩ := List.lookup_eq_some_iff.mp h
    exact heq ▸ List.mem_append_right _ List.mem_cons_self
  · intro h
    have hsome : (m.get? k).isSome := by
      rw [← Option.not_isNone, Bool.not_eq_true', Option.isNone_eq_false_iff]
      by_contra hnone
      rw [Option.not_isSome_iff_eq_none, get?, List.lookup_eq_none_iff] at hnone
      exact absurd (hnone _ h) (by simp)
    obtain ⟨w, hw⟩ := Option.isSome_iff_exists.mp hsome
    obtain ⟨front, back, heq, -⟩ := List.lookup_eq_some_iff.mp hw
    have hmem : (k, w) ∈ m.entries := heq ▸ List.mem_append_right _ List.mem_cons_self
    have hpair := List.inj_on_of_nodup_map m.distinct hmem h rfl
    rw [hw, (Prod.mk.inj hpair).2]

theorem get?_eq_none_iff : m.get? k = none ↔ k ∉ m.entries.map Prod.fst := by
  rw [Option.eq_none_iff_forall_ne_some]
  constructor
  · intro h hk
    obtain ⟨⟨_, v⟩, hv, rfl⟩ := List.mem_map.mp hk
    exact h v (get?_eq_some_iff.mpr hv)
  · intro h v hv
    exact h (List.mem_map.mpr ⟨_, get?_eq_some_iff.mp hv, rfl⟩)

theorem get?_ext {m' : InsertionMap κ ν} (h : ∀ v, (k, v) ∈ m'.entries ↔ (k, v) ∈ m.entries) :
    m'.get? k = m.get? k := by
  refine Option.ext fun v ↦ ?_
  rw [get?_eq_some_iff, get?_eq_some_iff, h]

@[simp] theorem get?_erase_self : (m.erase k).get? k = none := by
  rw [get?_eq_none_iff]
  intro hk
  obtain ⟨e, he, rfl⟩ := List.mem_map.mp hk
  exact of_decide_eq_true (List.mem_filter.mp he).2 rfl

@[simp] theorem get?_erase_ne (h : j ≠ k) : (m.erase k).get? j = m.get? j :=
  get?_ext fun v ↦ by
    rw [erase, List.mem_filter, decide_eq_true_iff]
    exact and_iff_left h

@[simp] theorem get?_set_self : (m.set k v).get? k = some v := by
  rw [get?_eq_some_iff, set]
  dsimp only
  split
  · rename_i hk
    obtain ⟨e, he, hek⟩ := List.mem_map.mp hk
    exact List.mem_map.mpr ⟨e, he, if_pos hek⟩
  · exact List.mem_append_right _ (List.mem_singleton_self _)

@[simp] theorem get?_set_ne (h : j ≠ k) : (m.set k v).get? j = m.get? j :=
  get?_ext fun w ↦ by
    rw [set]
    dsimp only
    split
    · rw [List.mem_map]
      constructor
      · rintro ⟨e, he, heq⟩
        split at heq
        · exact absurd (Prod.mk.inj heq).1.symm h
        · exact heq ▸ he
      · exact fun hw ↦ ⟨_, hw, if_neg h⟩
    · rw [List.mem_append, List.mem_singleton, Prod.mk.injEq]
      exact or_iff_left fun heq ↦ h heq.1

theorem get?_filter {p : κ → ν → Bool} :
    (m.filter p).get? k = some v ↔ m.get? k = some v ∧ p k v = true := by
  rw [get?_eq_some_iff, get?_eq_some_iff, filter, List.mem_filter]

theorem size_erase_le : (m.erase k).size ≤ m.size := List.length_filter_le _ _

theorem size_set_of_get? (h : m.get? k = some w) : (m.set k v).size = m.size := by
  have hk : k ∈ m.entries.map Prod.fst := List.mem_map.mpr ⟨_, get?_eq_some_iff.mp h, rfl⟩
  rw [size, set]
  dsimp only
  rw [if_pos hk, List.length_map]
  rfl

theorem entries_set_of_none (h : m.get? k = none) :
    (m.set k v).entries = m.entries ++ [(k, v)] := if_neg (get?_eq_none_iff.mp h)

theorem size_set_of_none (h : m.get? k = none) : (m.set k v).size = m.size + 1 := by
  rw [size, entries_set_of_none h, List.length_append, List.length_singleton]
  rfl

omit [DecidableEq κ] in
theorem size_trim_le (cap : Nat) : (m.trim cap).size ≤ cap := by
  rw [size, trim, List.length_drop]
  exact Nat.sub_le_of_le_add (by rw [size]; omega)

omit [DecidableEq κ] in
theorem trim_eq_self (cap : Nat) (h : m.size ≤ cap) : m.trim cap = m := by
  rw [trim]
  congr 1
  rw [Nat.sub_eq_zero_of_le h, List.drop_zero]

/-- What is left was there. -/
theorem get?_of_trim (cap : Nat) (h : (m.trim cap).get? k = some v) : m.get? k = some v := by
  rw [get?_eq_some_iff] at h ⊢
  exact List.mem_of_mem_drop h

/-- What is not among the first keys is left. -/
theorem get?_trim (cap : Nat) (h : m.get? k = some v)
    (hlast : (k, v) ∉ m.entries.take (m.size - cap)) : (m.trim cap).get? k = some v := by
  rw [get?_eq_some_iff] at h ⊢
  rw [← List.take_append_drop (m.size - cap) m.entries, List.mem_append] at h
  exact h.resolve_left hlast

/-- A map with one key too many drops the first. -/
theorem get?_trim_of_ne_head (cap : Nat) (hsize : m.size ≤ cap + 1) (h : m.get? k = some v)
    (hhead : m.entries.head? ≠ some (k, v)) : (m.trim cap).get? k = some v := by
  refine get?_trim cap h fun hmem ↦ hhead ?_
  have htake : m.entries.take (m.size - cap) ⊆ m.entries.take 1 :=
    List.take_subset_take_left _ (by omega)
  cases hentries : m.entries with
  | nil => rw [get?_eq_some_iff, hentries] at h; cases h
  | cons e rest =>
      have hfirst := htake hmem
      rw [hentries, List.take_succ_cons, List.take_zero, List.mem_singleton] at hfirst
      rw [List.head?_cons, hfirst]

/-! ## Where a value comes from -/

theorem get?_of_set (h : (m.set k v).get? j = some w) :
    j = k ∧ w = v ∨ j ≠ k ∧ m.get? j = some w := by
  by_cases hj : j = k
  · subst hj
    rw [get?_set_self] at h
    exact .inl ⟨rfl, (Option.some.inj h).symm⟩
  · rw [get?_set_ne hj] at h
    exact .inr ⟨hj, h⟩

theorem get?_of_erase (h : (m.erase k).get? j = some w) : j ≠ k ∧ m.get? j = some w := by
  by_cases hj : j = k
  · subst hj
    rw [get?_erase_self] at h
    cases h
  · exact ⟨hj, get?_erase_ne hj ▸ h⟩

/-- A key that is put at the end anew. -/
theorem get?_of_replace {cap : Nat} (h : (((m.erase k).set k v).trim cap).get? j = some w) :
    j = k ∧ w = v ∨ j ≠ k ∧ m.get? j = some w :=
  (get?_of_set (get?_of_trim cap h)).imp_right fun hj ↦ ⟨hj.1, (get?_of_erase hj.2).2⟩

/-! ## A map that is capped after each key -/

section Push

variable {cap : Nat}

/-- A key that is set stays. -/
theorem get?_trim_set_self (hsize : m.size ≤ cap) (hpos : 0 < cap) :
    ((m.set k v).trim cap).get? k = some v := by
  cases hk : m.get? k with
  | some w =>
      rw [trim_eq_self cap (size_set_of_get? hk ▸ hsize), get?_set_self]
  | none =>
      by_cases hfull : m.size < cap
      · rw [trim_eq_self cap (size_set_of_none hk ▸ hfull), get?_set_self]
      · refine get?_trim_of_ne_head cap (by rw [size_set_of_none hk]; omega) get?_set_self ?_
        intro heq
        rw [entries_set_of_none hk] at heq
        cases hentries : m.entries with
        | nil =>
            rw [size, hentries] at hfull
            exact hfull hpos
        | cons e rest =>
            rw [hentries, List.cons_append, List.head?_cons] at heq
            refine get?_eq_none_iff.mp hk ?_
            rw [hentries, Option.some.inj heq]
            exact List.mem_cons_self

/-- Another key stays, unless the map is full of keys that came after it. -/
theorem get?_trim_set_ne (hsize : m.size ≤ cap) (h : j ≠ k) :
    ((m.set k v).trim cap).get? j = m.get? j ∨
      ((m.set k v).trim cap).get? j = none ∧ m.get? k = none ∧ m.size = cap ∧
        ∃ w, m.entries.head? = some (j, w) := by
  cases hk : m.get? k with
  | some w =>
      rw [trim_eq_self cap (size_set_of_get? hk ▸ hsize)]
      exact .inl (get?_set_ne h)
  | none =>
      by_cases hfull : m.size < cap
      · rw [trim_eq_self cap (size_set_of_none hk ▸ hfull)]
        exact .inl (get?_set_ne h)
      · have hcap : m.size = cap := Nat.le_antisymm hsize (Nat.not_lt.mp hfull)
        cases hj : ((m.set k v).trim cap).get? j with
        | some w =>
            have hw := get?_of_trim cap hj
            rw [get?_set_ne h] at hw
            exact .inl hw.symm
        | none =>
            cases hw : m.get? j with
            | none => exact .inl rfl
            | some w =>
                refine .inr ⟨rfl, rfl, hcap, w, ?_⟩
                by_contra hhead
                have hset : (m.set k v).get? j = some w := (get?_set_ne h).trans hw
                have hne : (m.set k v).entries.head? ≠ some (j, w) := by
                  rw [entries_set_of_none hk]
                  cases hentries : m.entries with
                  | nil =>
                      rw [List.nil_append, List.head?_cons]
                      exact fun heq ↦ h (Prod.mk.inj (Option.some.inj heq)).1.symm
                  | cons e rest =>
                      rw [hentries] at hhead
                      exact hhead
                rw [get?_trim_of_ne_head cap (by rw [size_set_of_none hk]; omega) hset hne] at hj
                cases hj

end Push

end InsertionMap
