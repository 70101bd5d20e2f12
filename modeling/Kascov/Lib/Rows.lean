import Mathlib.Tactic.Common
import Mathlib.Data.List.Nodup

/-!
# Tables as lists of rows

An `UPDATE … WHERE` over a table kept as a list is a `map`, a `DELETE … WHERE`
a `filter`.  A loop that updates and deletes once for each key of a list is one
update and one deletion, when no update changes what a deletion looks at.
-/

universe u v

namespace Rows

variable {α : Type u} {β : Type v}

theorem foldl_append_map (f : α → β) (xs : List α) (acc : List β) :
    xs.foldl (fun acc x ↦ acc ++ [f x]) acc = acc ++ xs.map f := by
  induction xs generalizing acc with
  | nil => simp
  | cons x xs ih => simp [ih]

/-- A loop of updates and deletions, as one update and one deletion. -/
theorem foldl_map_filter (f : β → α → α) (p : β → α → Bool)
    (hp : ∀ b b' a, p b (f b' a) = p b a) (bs : List β) (rows : List α) :
    bs.foldl (fun rows b ↦ (rows.map (f b)).filter (p b)) rows =
      (rows.map fun a ↦ bs.foldl (fun a b ↦ f b a) a).filter fun a ↦ bs.all (p · a) := by
  induction bs generalizing rows with
  | nil => simp
  | cons b bs ih =>
      have hfold : ∀ (cs : List β) a, bs.all (p · (cs.foldl (fun a b ↦ f b a) a)) =
          bs.all (p · a) := by
        intro cs
        induction cs with
        | nil => intro a; rfl
        | cons c cs ihc => intro a; simp [ihc, hp]
      have hb : ∀ (cs : List β) a, p b (cs.foldl (fun a b ↦ f b a) a) = p b a := by
        intro cs
        induction cs with
        | nil => intro a; rfl
        | cons c cs ihc => intro a; simp [ihc, hp]
      rw [List.foldl_cons, ih]
      simp only [List.filter_map, List.map_map, List.filter_filter]
      congr 1
      refine List.filter_congr fun a _ ↦ ?_
      simp [hfold, hb, hp, Bool.and_comm]

/-- Deleting the rows of one more key. -/
theorem filter_notMem_cons [DecidableEq β] (key : α → β) (b : β) (bs : List β)
    (rows : List α) :
    (rows.filter (key · ≠ b)).filter (key · ∉ bs) = rows.filter (key · ∉ b :: bs) := by
  rw [List.filter_filter]
  refine List.filter_congr fun a _ ↦ ?_
  simp [Bool.and_comm]

theorem all_ne_eq_notMem [DecidableEq β] (x : β) (bs : List β) :
    bs.all (fun b ↦ decide (x ≠ b)) = decide (x ∉ bs) := by
  induction bs with
  | nil => rfl
  | cons b bs ih => rw [List.all_cons, ih]; simp

/-- A loop of updates is one update. -/
theorem foldl_map (f : β → α → α) (bs : List β) (rows : List α) :
    bs.foldl (fun rows b ↦ rows.map (f b)) rows =
      rows.map fun a ↦ bs.foldl (fun a b ↦ f b a) a := by
  induction bs generalizing rows with
  | nil => simp
  | cons b bs ih => simp [ih, Function.comp_def]

/-- The only row of a kind is the one found. -/
theorem find?_of_unique {p : α → Bool} {rows : List α} {a : α} (ha : a ∈ rows) (hp : p a = true)
    (h : ∀ x ∈ rows, p x = true → x = a) : rows.find? p = some a := by
  cases hfind : rows.find? p with
  | none => exact absurd hp (List.find?_eq_none.mp hfind a ha)
  | some x => rw [h x (List.mem_of_find?_eq_some hfind) (List.find?_some hfind)]

/-- A row is found under its key. -/
theorem find?_key [DecidableEq β] {key : α → β} {rows : List α} (h : (rows.map key).Nodup)
    {a : α} (ha : a ∈ rows) : rows.find? (key · = key a) = some a :=
  find?_of_unique ha (by simp) fun _ hx hkey ↦
    List.inj_on_of_nodup_map h hx ha (of_decide_eq_true hkey)

/-- What is found under a key, when keys are unique. -/
theorem find?_key_eq_some [DecidableEq β] {key : α → β} {rows : List α}
    (h : (rows.map key).Nodup) {k : β} {a : α} :
    rows.find? (key · = k) = some a ↔ a ∈ rows ∧ key a = k := by
  constructor
  · intro hfind
    exact ⟨List.mem_of_find?_eq_some hfind, by simpa using List.find?_some hfind⟩
  · rintro ⟨ha, rfl⟩
    exact find?_key h ha

/-- What a loop that keeps its best row or takes the current one ends with. -/
theorem foldl_choice_mem {f : Option α → α → Option α}
    (hf : ∀ best a c, f best a = some c → best = some c ∨ c = a) {rows : List α}
    {best : Option α} {c : α} (h : rows.foldl f best = some c) : best = some c ∨ c ∈ rows := by
  induction rows generalizing best with
  | nil => exact .inl h
  | cons a rows ih =>
      rcases ih h with h | h
      · rcases hf best a c h with h | rfl
        · exact .inl h
        · exact .inr List.mem_cons_self
      · exact .inr (List.mem_cons_of_mem _ h)

/-- A projection that keeps keys keeps their order. -/
theorem filterMap_map_sublist {γ : Type*} {f : α → Option β} {key : α → γ} {key' : β → γ}
    (h : ∀ a b, f a = some b → key' b = key a) (rows : List α) :
    ((rows.filterMap f).map key').Sublist (rows.map key) := by
  induction rows with
  | nil => exact List.Sublist.refl _
  | cons a rows ih =>
      rw [List.filterMap_cons, List.map_cons]
      cases hb : f a with
      | none => exact ih.cons _
      | some b =>
          rw [List.map_cons, h a b hb]
          exact ih.cons_cons _

/-- A selection that finds one row: the only one there is. -/
theorem filter_eq_singleton_iff {p : α → Bool} {rows : List α} (h : rows.Nodup) {a : α} :
    rows.filter p = [a] ↔ (a ∈ rows ∧ p a = true) ∧ ∀ x ∈ rows, p x = true → x = a := by
  constructor
  · intro heq
    have hmem : ∀ x, x ∈ rows ∧ p x = true ↔ x = a := fun x ↦ by
      rw [← List.mem_filter, heq, List.mem_singleton]
    exact ⟨(hmem a).mpr rfl, fun x hx hp ↦ (hmem x).mp ⟨hx, hp⟩⟩
  · rintro ⟨ha, hsole⟩
    have hnodup := h.filter p
    have hall : ∀ x ∈ rows.filter p, x = a := fun x hx ↦
      hsole x (List.mem_filter.mp hx).1 (List.mem_filter.mp hx).2
    have hmem : a ∈ rows.filter p := List.mem_filter.mpr ha
    rw [List.eq_replicate_of_mem hall] at hnodup hmem ⊢
    have hle := List.nodup_replicate.mp hnodup
    have hne : (rows.filter p).length ≠ 0 := fun h0 ↦ by simp [h0] at hmem
    rw [show (rows.filter p).length = 1 by omega, List.replicate_one]

/-- Taking one element out of a predicate takes at most one off a count. -/
theorem countP_split [DecidableEq α] {xs : List α} (h : xs.Nodup) (p : α → Bool) (a : α) :
    xs.countP p = xs.countP (fun x ↦ p x && x ≠ a) + if a ∈ xs ∧ p a then 1 else 0 := by
  induction xs with
  | nil => simp
  | cons x xs ih =>
      obtain ⟨hx, hxs⟩ := List.nodup_cons.mp h
      rw [List.countP_cons, List.countP_cons, ih hxs]
      by_cases hxa : x = a
      · subst hxa
        by_cases hp : p x = true
        · simp [hp, hx]
        · simp [hp]
      · have hax : a ≠ x := fun e ↦ hxa e.symm
        simp [hxa, hax]
        omega

section Touch

variable (g : β → α → α) (touch : β → α → Prop)

/-- Updates that leave a row they do not touch leave a row none of them
touches. -/
theorem foldl_eq_self (hidle : ∀ b a, ¬touch b a → g b a = a) {bs : List β} {a : α}
    (h : ∀ b ∈ bs, ¬touch b a) : bs.foldl (fun a b ↦ g b a) a = a := by
  induction bs with
  | nil => rfl
  | cons b bs ih =>
      rw [List.foldl_cons, hidle b a (h b List.mem_cons_self)]
      exact ih fun b' hb' ↦ h b' (List.mem_cons_of_mem _ hb')

/-- When no two updates touch one row, a row takes the one that touches it. -/
theorem foldl_eq_of_touch (hidle : ∀ b a, ¬touch b a → g b a = a)
    (hkeep : ∀ b b' a, touch b (g b' a) ↔ touch b a) {bs : List β}
    (hpair : bs.Pairwise fun b b' ↦ ∀ a, touch b a → ¬touch b' a) {b : β} (hb : b ∈ bs)
    {a : α} (ht : touch b a) : bs.foldl (fun a b ↦ g b a) a = g b a := by
  induction bs with
  | nil => cases hb
  | cons b₀ bs ih =>
      rw [List.pairwise_cons] at hpair
      rw [List.foldl_cons]
      rcases List.mem_cons.mp hb with rfl | hb
      · refine foldl_eq_self g touch hidle fun b' hb' ↦ ?_
        rw [hkeep]
        exact hpair.1 b' hb' a ht
      · rw [hidle b₀ a fun h₀ ↦ hpair.1 b hb a h₀ ht]
        exact ih hpair.2 hb

end Touch

/-- When an update and a deletion over a table with new rows give the old table
back: the old rows are kept, the update leaves each as it was, and no new row is
kept. -/
theorem filter_map_append_eq_self {g : α → α} {p : α → Bool} (hp : ∀ a, p (g a) = p a)
    (rows new : List α) :
    (rows.map g ++ new).filter p = rows ↔
      (∀ a ∈ rows, p a = true ∧ g a = a) ∧ ∀ a ∈ new, p a = false := by
  constructor
  · intro h
    have hall : ∀ a ∈ rows, p a = true := by
      intro a ha
      rw [← h] at ha
      exact (List.mem_filter.mp ha).2
    have hkeep : (rows.map g).filter p = rows.map g := by
      rw [List.filter_eq_self]
      intro b hb
      obtain ⟨a, ha, rfl⟩ := List.mem_map.mp hb
      rw [hp]
      exact hall a ha
    rw [List.filter_append, hkeep] at h
    have hlen : (new.filter p).length = 0 := by
      have := congrArg List.length h
      rw [List.length_append, List.length_map] at this
      omega
    have hnew : new.filter p = [] := List.length_eq_zero_iff.mp hlen
    rw [hnew, List.append_nil] at h
    refine ⟨fun a ha ↦ ⟨hall a ha, ?_⟩, fun a ha ↦ ?_⟩
    · exact List.map_eq_map_iff.mp (h.trans (List.map_id rows).symm) a ha
    · simpa using List.filter_eq_nil_iff.mp hnew a ha
  · rintro ⟨hrows, hnew⟩
    have hmap : rows.map g = rows :=
      (List.map_congr_left fun a ha ↦ (hrows a ha).2).trans (List.map_id rows)
    have hnil : new.filter p = [] :=
      List.filter_eq_nil_iff.mpr fun a ha ↦ by simp [hnew a ha]
    rw [hmap, List.filter_append, hnil, List.append_nil, List.filter_eq_self]
    exact fun a ha ↦ (hrows a ha).1

/-! ## Folds over one state -/

section State

variable {σ : Type*} {f : σ → β → σ}

/-- What each step makes true of its own element and keeps of the others, holds of
all of them in the end. -/
theorem foldl_establishes (P : β → σ → Prop) (self : ∀ s b, P b (f s b))
    (keep : ∀ s b c, P b s → P b (f s c)) {bs : List β} (s : σ) :
    ∀ b ∈ bs, P b (bs.foldl f s) := by
  induction bs generalizing s with
  | nil => exact fun _ hb ↦ absurd hb List.not_mem_nil
  | cons c bs ih =>
      have hkeep : ∀ (bs : List β) (s : σ), P c s → P c (bs.foldl f s) := by
        intro bs
        induction bs with
        | nil => exact fun _ h ↦ h
        | cons b bs ih => exact fun s h ↦ ih _ (keep s c b h)
      exact List.forall_mem_cons.mpr ⟨hkeep bs _ (self s c), ih _⟩

/-- Steps that change nothing change nothing together. -/
theorem foldl_fixed {bs : List β} {s : σ} (h : ∀ b ∈ bs, f s b = s) : bs.foldl f s = s := by
  induction bs with
  | nil => rfl
  | cons b bs ih =>
      obtain ⟨hb, hbs⟩ := List.forall_mem_cons.mp h
      rw [List.foldl_cons, hb]
      exact ih hbs

/-- What every step keeps, the fold keeps. -/
theorem foldl_keeps {P : σ → Prop} (keep : ∀ s b, P s → P (f s b)) {s : σ} (bs : List β)
    (h : P s) : P (bs.foldl f s) := by
  induction bs generalizing s with
  | nil => exact h
  | cons b bs ih => exact ih (keep s b h)

end State

end Rows
