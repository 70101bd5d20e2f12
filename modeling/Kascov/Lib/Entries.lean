import Mathlib.Tactic.Common
import Mathlib.Data.List.Induction
import Mathlib.Data.List.Sort

/-!
# Hash maps as lists of entries

A map filled by `entry(key).or_default()` and an update, kept as the list of its
entries.  After a run of such updates the keys are distinct, and each holds the
default taken through the updates made under it.
-/

universe u v w

namespace Entries

variable {κ : Type u} {ν : Type v} {ι : Type w} [DecidableEq κ]

/-- `*map.entry(key).or_insert(d) = f(..)`. -/
def update (d : ν) (f : ν → ν) (key : κ) (m : List (κ × ν)) : List (κ × ν) :=
  if m.any (·.1 = key) then
    m.map fun e => if e.1 = key then (key, f e.2) else e
  else
    m ++ [(key, f d)]

/-- A run of updates, one for each of `xs`. -/
def updateAll (d : ν) (f : ι → ν → ν) (key : ι → κ) (xs : List ι) : List (κ × ν) :=
  xs.foldl (fun m x => update d (f x) (key x) m) []

variable {d : ν} {f : ι → ν → ν} {key : ι → κ}

theorem update_keys_nodup {g : ν → ν} {k : κ} {m : List (κ × ν)}
    (h : (m.map (·.1)).Nodup) : ((update d g k m).map (·.1)).Nodup := by
  unfold update
  by_cases hany : m.any (·.1 = k) = true
  · rw [if_pos hany, List.map_map]
    have hkeys : ((·.1) ∘ fun e : κ × ν ↦ if e.1 = k then (k, g e.2) else e) = (·.1) := by
      funext e
      by_cases he : e.1 = k
      · simp [he]
      · simp [he]
    rw [hkeys]
    exact h
  · rw [if_neg hany, List.map_append, List.nodup_append]
    refine ⟨h, by simp, ?_⟩
    intro a ha b hb heq
    obtain ⟨e, he, rfl⟩ := List.mem_map.mp ha
    rw [List.mem_singleton.mp hb] at heq
    exact hany (List.any_eq_true.mpr ⟨e, he, decide_eq_true heq⟩)

theorem mem_update {g : ν → ν} {k : κ} {m : List (κ × ν)} {e : κ × ν} :
    e ∈ update d g k m ↔
      (e ∈ m ∧ e.1 ≠ k) ∨
        e.1 = k ∧ ((∃ v, (k, v) ∈ m ∧ e.2 = g v) ∨ (∀ x ∈ m, x.1 ≠ k) ∧ e.2 = g d) := by
  obtain ⟨ek, ev⟩ := e
  unfold update
  by_cases hany : m.any (·.1 = k) = true
  · have hex : ∃ x ∈ m, x.1 = k := by simpa using hany
    have hnone : ¬∀ x ∈ m, x.1 ≠ k := by
      obtain ⟨x, hx, heq⟩ := hex
      exact fun h ↦ h x hx heq
    rw [if_pos hany, List.mem_map]
    constructor
    · rintro ⟨x, hx, heq⟩
      by_cases hk : x.1 = k
      · rw [if_pos hk] at heq
        obtain ⟨rfl, rfl⟩ := Prod.mk.inj heq
        exact .inr ⟨rfl, .inl ⟨x.2, hk ▸ hx, rfl⟩⟩
      · rw [if_neg hk] at heq
        subst heq
        exact .inl ⟨hx, hk⟩
    · rintro (⟨hmem, hne⟩ | ⟨rfl, ⟨v, hv, rfl⟩ | ⟨hall, -⟩⟩)
      · exact ⟨_, hmem, if_neg hne⟩
      · exact ⟨_, hv, if_pos rfl⟩
      · exact absurd hall hnone
  · have hnone : ∀ x ∈ m, x.1 ≠ k := fun x hx heq ↦
      hany (List.any_eq_true.mpr ⟨x, hx, decide_eq_true heq⟩)
    rw [if_neg hany, List.mem_append, List.mem_singleton, Prod.mk.injEq]
    constructor
    · rintro (hmem | ⟨rfl, rfl⟩)
      · exact .inl ⟨hmem, hnone _ hmem⟩
      · exact .inr ⟨rfl, .inr ⟨hnone, rfl⟩⟩
    · rintro (⟨hmem, -⟩ | ⟨rfl, ⟨v, hv, -⟩ | ⟨-, rfl⟩⟩)
      · exact .inl hmem
      · exact absurd rfl (hnone (_, v) hv)
      · exact .inr ⟨rfl, rfl⟩

theorem updateAll_concat (xs : List ι) (x : ι) :
    updateAll d f key (xs ++ [x]) = update d (f x) (key x) (updateAll d f key xs) := by
  simp [updateAll]

theorem updateAll_keys_nodup (xs : List ι) : ((updateAll d f key xs).map (·.1)).Nodup := by
  induction xs using List.reverseRecOn with
  | nil => exact List.nodup_nil
  | append_singleton xs x ih =>
      rw [updateAll_concat]
      exact update_keys_nodup ih

/-- **The entries after a run of updates.** -/
theorem mem_updateAll {xs : List ι} {e : κ × ν} :
    e ∈ updateAll d f key xs ↔
      e.1 ∈ xs.map key ∧ e.2 = (xs.filter (key · = e.1)).foldl (fun v x ↦ f x v) d := by
  induction xs using List.reverseRecOn generalizing e with
  | nil => simp [updateAll]
  | append_singleton xs x ih =>
      obtain ⟨k, v⟩ := e
      rw [updateAll_concat, mem_update, List.map_append, List.mem_append, List.filter_append,
        List.foldl_append]
      by_cases hk : k = key x
      · subst hk
        have hseen : (∀ e ∈ updateAll d f key xs, e.1 ≠ key x) ↔ key x ∉ xs.map key := by
          constructor
          · intro h hmem
            let v := (xs.filter fun y ↦ decide (key y = key x)).foldl (fun v y ↦ f y v) d
            exact h (key x, v) (ih.mpr ⟨hmem, rfl⟩) rfl
          · intro h e he heq
            exact h (heq ▸ (ih.mp he).1)
        have hfilter : [x].filter (fun y ↦ decide (key y = key x)) = [x] := by simp
        rw [hseen, hfilter]
        constructor
        · rintro (⟨-, hne⟩ | ⟨-, ⟨w, hw, rfl⟩ | ⟨hnew, rfl⟩⟩)
          · exact absurd rfl hne
          · obtain ⟨hmem, hval⟩ := ih.mp hw
            exact ⟨.inl hmem, by rw [← hval]; rfl⟩
          · have hnil : xs.filter (fun y ↦ decide (key y = key x)) = [] := by
              rw [List.filter_eq_nil_iff]
              intro y hy hkey
              exact hnew (List.mem_map.mpr ⟨y, hy, by simpa using hkey⟩)
            exact ⟨.inr (by simp), by rw [hnil]; rfl⟩
        · rintro ⟨-, hval⟩
          refine .inr ⟨rfl, ?_⟩
          by_cases hmem : key x ∈ xs.map key
          · exact .inl ⟨_, ih.mpr ⟨hmem, rfl⟩, hval⟩
          · have hnil : xs.filter (fun y ↦ decide (key y = key x)) = [] := by
              rw [List.filter_eq_nil_iff]
              intro y hy hkey
              exact hmem (List.mem_map.mpr ⟨y, hy, by simpa using hkey⟩)
            rw [hnil] at hval
            exact .inr ⟨hmem, hval⟩
      · have hfilter : [x].filter (fun y ↦ decide (key y = k)) = [] := by
          simpa using Ne.symm hk
        rw [hfilter]
        constructor
        · rintro (⟨hmem, -⟩ | ⟨heq, -⟩)
          · obtain ⟨hkey, hval⟩ := ih.mp hmem
            exact ⟨.inl hkey, hval⟩
          · exact absurd heq hk
        · rintro ⟨hkey | hkey, hval⟩
          · exact .inl ⟨ih.mpr ⟨hkey, hval⟩, hk⟩
          · exact absurd (by simpa using hkey) hk

section Sorted

variable (r : κ → κ → Prop) [DecidableRel r] [Std.Total r] [IsTrans κ r]
  (anti : ∀ a b, r a b → r b a → a = b)

include anti

omit [DecidableEq κ] in
/-- The entries sorted by key, as the sorted list of the keys with the value of
each. -/
theorem sort_eq_map {m : List (κ × ν)} {ks : List κ} {val : κ → ν}
    (hm : (m.map (·.1)).Nodup) (hks : ks.Nodup)
    (hmem : ∀ e : κ × ν, e ∈ m ↔ e.1 ∈ ks ∧ e.2 = val e.1) :
    m.insertionSort (fun a b ↦ r a.1 b.1) =
      (ks.insertionSort r).map fun k ↦ (k, val k) := by
  have htotal : Std.Total fun a b : κ × ν ↦ r a.1 b.1 := ⟨fun a b ↦ Std.Total.total a.1 b.1⟩
  have htrans : IsTrans (κ × ν) fun a b ↦ r a.1 b.1 :=
    ⟨fun a b c hab hbc ↦ IsTrans.trans a.1 b.1 c.1 hab hbc⟩
  have hnodup : ((ks.insertionSort r).map fun k ↦ (k, val k)).Nodup := by
    refine List.Nodup.map (fun a b h ↦ (Prod.mk.inj h).1) ?_
    exact (List.perm_insertionSort r ks).nodup_iff.mpr hks
  have hperm : (m.insertionSort fun a b ↦ r a.1 b.1).Perm
      ((ks.insertionSort r).map fun k ↦ (k, val k)) := by
    refine (List.perm_insertionSort _ m).trans ?_
    refine (List.perm_ext_iff_of_nodup hm.of_map hnodup).mpr fun e ↦ ?_
    rw [hmem, List.mem_map]
    constructor
    · rintro ⟨hk, hv⟩
      exact ⟨e.1, (List.mem_insertionSort r).mpr hk, by rw [← hv]⟩
    · rintro ⟨k, hk, rfl⟩
      exact ⟨(List.mem_insertionSort r).mp hk, rfl⟩
  refine hperm.eq_of_pairwise ?_ (List.pairwise_insertionSort _ m) ?_
  · intro a b ha hb hab hba
    obtain ⟨-, hva⟩ := (hmem a).mp ((List.mem_insertionSort _).mp ha)
    obtain ⟨k, -, rfl⟩ := List.mem_map.mp hb
    have hkey := anti _ _ hab hba
    exact Prod.ext hkey (hva.trans (congrArg val hkey))
  · exact List.pairwise_map.mpr (List.pairwise_insertionSort r ks)

end Sorted

end Entries
