import Mathlib.Data.List.Nodup
import Mathlib.Tactic.Common

/-!
# Consecutive rows

Rows that come in the order of a key, grouped as they come: a row is put to the last group
when it has that group's key, and opens one otherwise.  A value is kept once in a group.
-/

universe u v

namespace Consecutive

variable {κ : Type u} {β : Type v} [DecidableEq κ] [DecidableEq β]

/-- A row is put to the groups before it. -/
def groupRow (out : List (κ × List β)) (row : κ × β) : List (κ × List β) :=
  match out.getLast? with
  | some (k, values) =>
      if k = row.1 then
        out.dropLast ++ [(k, if row.2 ∈ values then values else values ++ [row.2])]
      else out ++ [(row.1, [row.2])]
  | none => out ++ [(row.1, [row.2])]

def groupRows (rows : List (κ × β)) : List (κ × List β) := rows.foldl groupRow []

/-- The groups of the rows seen so far, in the order of their keys. -/
structure Grouped (rank : κ → Nat) (seen : List (κ × β)) (out : List (κ × List β)) : Prop where
  ordered : out.Pairwise fun g g' ↦ rank g.1 < rank g'.1
  nodup : ∀ g ∈ out, g.2.Nodup
  nonempty : ∀ g ∈ out, g.2 ≠ []
  mem : ∀ k b, (∃ g ∈ out, g.1 = k ∧ b ∈ g.2) ↔ (k, b) ∈ seen

variable {rank : κ → Nat} {seen rows : List (κ × β)} {out : List (κ × List β)} {row : κ × β}

omit [DecidableEq κ] [DecidableEq β] in
theorem Grouped.keys_nodup (h : Grouped rank seen out) : (out.map Prod.fst).Nodup := by
  refine List.pairwise_map.mpr (h.ordered.imp fun hlt heq ↦ ?_)
  rw [heq] at hlt
  exact Nat.lt_irrefl _ hlt

omit [DecidableEq κ] [DecidableEq β] in
/-- A key that comes behind all others opens a group. -/
theorem Grouped.opens (h : Grouped rank seen out) (hlow : ∀ g ∈ out, rank g.1 < rank row.1) :
    Grouped rank (seen ++ [row]) (out ++ [(row.1, [row.2])]) where
  ordered := by
    refine List.pairwise_append.mpr ⟨h.ordered, List.pairwise_singleton _ _, fun g hg g' hg' ↦ ?_⟩
    rw [List.mem_singleton.mp hg']
    exact hlow g hg
  nodup g hg := by
    rcases List.mem_append.mp hg with hg | hg
    · exact h.nodup g hg
    · rw [List.mem_singleton.mp hg]
      exact List.nodup_singleton _
  nonempty g hg := by
    rcases List.mem_append.mp hg with hg | hg
    · exact h.nonempty g hg
    · rw [List.mem_singleton.mp hg]
      exact List.cons_ne_nil _ _
  mem k b := by
    rw [List.mem_append, List.mem_singleton, ← h.mem]
    constructor
    · rintro ⟨g, hg, rfl, hb⟩
      rcases List.mem_append.mp hg with hg | hg
      · exact .inl ⟨g, hg, rfl, hb⟩
      · rw [List.mem_singleton.mp hg] at hb ⊢
        exact .inr (Prod.ext rfl (List.mem_singleton.mp hb))
    · rintro (⟨g, hg, hk, hb⟩ | rfl)
      · exact ⟨g, List.mem_append_left _ hg, hk, hb⟩
      · exact ⟨_, List.mem_append_right _ (List.mem_singleton_self _), rfl,
          List.mem_singleton_self _⟩

omit [DecidableEq κ] in
/-- A row of the last key is put to the last group. -/
theorem Grouped.joins {front : List (κ × List β)} {values : List β}
    (h : Grouped rank seen (front ++ [(row.1, values)])) :
    Grouped rank (seen ++ [row])
      (front ++ [(row.1, if row.2 ∈ values then values else values ++ [row.2])]) := by
  have hlast : (row.1, values) ∈ front ++ [(row.1, values)] :=
    List.mem_append_right _ (List.mem_singleton_self _)
  have hmem : ∀ b, b ∈ (if row.2 ∈ values then values else values ++ [row.2]) ↔
      b ∈ values ∨ b = row.2 := by
    intro b
    split
    · rename_i hrow
      exact ⟨.inl, fun hb ↦ hb.elim (fun hb ↦ hb) fun heq ↦ heq ▸ hrow⟩
    · rw [List.mem_append, List.mem_singleton]
  refine ⟨?_, fun g hg ↦ ?_, fun g hg ↦ ?_, fun k b ↦ ?_⟩
  · obtain ⟨hfront, -, hbehind⟩ := List.pairwise_append.mp h.ordered
    refine List.pairwise_append.mpr ⟨hfront, List.pairwise_singleton _ _, fun g hg g' hg' ↦ ?_⟩
    rw [List.mem_singleton.mp hg']
    exact hbehind g hg (row.1, values) (List.mem_singleton_self _)
  · rcases List.mem_append.mp hg with hg | hg
    · exact h.nodup g (List.mem_append_left _ hg)
    · rw [List.mem_singleton.mp hg]
      have hvalues := h.nodup _ hlast
      dsimp only
      split
      · exact hvalues
      · rename_i hrow
        exact hvalues.append (List.nodup_singleton _) (List.disjoint_singleton.mpr hrow)
  · rcases List.mem_append.mp hg with hg | hg
    · exact h.nonempty g (List.mem_append_left _ hg)
    · rw [List.mem_singleton.mp hg]
      exact List.ne_nil_of_mem ((hmem row.2).mpr (.inr rfl))
  · rw [List.mem_append, List.mem_singleton, ← h.mem]
    constructor
    · rintro ⟨g, hg, rfl, hb⟩
      rcases List.mem_append.mp hg with hg | hg
      · exact .inl ⟨g, List.mem_append_left _ hg, rfl, hb⟩
      · rw [List.mem_singleton.mp hg] at hb ⊢
        rcases (hmem b).mp hb with hb | rfl
        · exact .inl ⟨_, hlast, rfl, hb⟩
        · exact .inr rfl
    · rintro (⟨g, hg, hk, hb⟩ | rfl)
      · rcases List.mem_append.mp hg with hg | hg
        · exact ⟨g, List.mem_append_left _ hg, hk, hb⟩
        · rw [List.mem_singleton.mp hg] at hk hb
          exact ⟨_, List.mem_append_right _ (List.mem_singleton_self _), hk, (hmem b).mpr (.inl hb)⟩
      · exact ⟨_, List.mem_append_right _ (List.mem_singleton_self _), rfl, (hmem _).mpr (.inr rfl)⟩

theorem Grouped.step (hrank : Function.Injective rank) (h : Grouped rank seen out)
    (hlow : ∀ r ∈ seen, rank r.1 ≤ rank row.1) :
    Grouped rank (seen ++ [row]) (groupRow out row) := by
  have hkeys : ∀ g ∈ out, rank g.1 ≤ rank row.1 := by
    intro g hg
    obtain ⟨b, hb⟩ := List.exists_mem_of_ne_nil _ (h.nonempty g hg)
    exact hlow (g.1, b) ((h.mem g.1 b).mp ⟨g, hg, rfl, hb⟩)
  unfold groupRow
  split
  · rename_i k values hlast
    obtain ⟨front, rfl⟩ := List.getLast?_eq_some_iff.mp hlast
    split
    · rename_i heq
      subst heq
      rw [List.dropLast_concat]
      exact h.joins
    · rename_i hne
      -- the last key lies behind this one, and the others behind the last
      refine h.opens fun g hg ↦ ?_
      have hlt : rank k < rank row.1 := Nat.lt_of_le_of_ne
        (hkeys (k, values) (List.mem_append_right _ (List.mem_singleton_self _)))
        fun heq ↦ hne (hrank heq)
      rcases List.mem_append.mp hg with hg | hg
      · exact Nat.lt_trans ((List.pairwise_append.mp h.ordered).2.2 g hg _
          (List.mem_singleton_self _)) hlt
      · rw [List.mem_singleton.mp hg]
        exact hlt
  · rename_i hnil
    obtain rfl := List.getLast?_eq_none_iff.mp hnil
    exact h.opens (List.forall_mem_nil _)

/-- **The groups of ordered rows.** -/
theorem groupRows_spec (hrank : Function.Injective rank)
    (hrows : rows.Pairwise fun r r' ↦ rank r.1 ≤ rank r'.1) :
    Grouped rank rows (groupRows rows) := by
  have hfold : ∀ (later seen : List (κ × β)) (out : List (κ × List β)), Grouped rank seen out →
      (seen ++ later).Pairwise (fun r r' ↦ rank r.1 ≤ rank r'.1) →
        Grouped rank (seen ++ later) (later.foldl groupRow out) := by
    intro later
    induction later with
    | nil =>
        intro seen out h _
        rw [List.append_nil]
        exact h
    | cons row later ih =>
        intro seen out h hordered
        have hlow : ∀ r ∈ seen, rank r.1 ≤ rank row.1 := fun r hr ↦
          (List.pairwise_append.mp hordered).2.2 r hr row List.mem_cons_self
        rw [List.append_cons] at hordered ⊢
        exact ih _ _ (h.step hrank hlow) hordered
  refine hfold rows [] []
    ⟨List.Pairwise.nil, List.forall_mem_nil _, List.forall_mem_nil _, ?_⟩ hrows
  intro k b
  exact ⟨fun ⟨_, hg, _⟩ ↦ absurd hg List.not_mem_nil, fun hb ↦ absurd hb List.not_mem_nil⟩

end Consecutive
