import Kascov.Lib.Lineage

/-!
# Where two lines part

Two lines of a tree share a beginning and nothing behind it.  What is held of one line, in
view of another, is cut back to what they share, or lies within it.
-/

universe u

namespace Lineage

variable {α : Type u} (l : Lineage α) {a b c t : α}

/-- A list whose accepted elements come first is these, and then the others. -/
theorem filter_append_others {p : α → Bool} {xs : List α}
    (h : xs.Pairwise fun x y ↦ p y = true → p x = true) :
    xs.filter p ++ xs.filter (fun x ↦ !p x) = xs := by
  induction xs with
  | nil => rfl
  | cons x xs ih =>
      obtain ⟨hx, hxs⟩ := List.pairwise_cons.mp h
      by_cases hp : p x = true
      · rw [List.filter_cons_of_pos hp, List.filter_cons_of_neg (by simp [hp]), List.cons_append,
          ih hxs]
      · have hnone : ∀ y ∈ xs, ¬p y = true := fun y hy hpy ↦ hp (hx y hy hpy)
        rw [List.filter_cons_of_neg hp, List.filter_cons_of_pos (by simp [hp]),
          List.filter_eq_nil_iff.mpr hnone, List.filter_eq_self.mpr fun y hy ↦ by
            simp [hnone y hy]]
        rfl

/-- The line of an element on a line is the line up to it. -/
theorem path_of_split {pre post : List α} (h : l.path a = pre ++ b :: post) :
    l.path b = pre ++ [b] := by
  have hmem : b ∈ l.path a := h ▸ List.mem_append_right pre List.mem_cons_self
  obtain ⟨front, hfront⟩ := l.ends b
  have hline : pre ++ [b] <+: l.path a := ⟨post, by rw [h, List.append_assoc]; rfl⟩
  have hbegins := l.begins b a hmem
  rw [hfront] at hbegins
  rw [hfront, prefix_unique (l.nodup a) hbegins hline]

/-- What comes before an element of a line is on the line of that element. -/
theorem pairwise_path (a : α) : (l.path a).Pairwise fun x y ↦ x ∈ l.path y := by
  rw [List.pairwise_iff_getElem]
  intro i j hi hj hij
  have hsplit : l.path a = (l.path a).take j ++ (l.path a)[j] :: (l.path a).drop (j + 1) := by
    rw [List.getElem_cons_drop, List.take_append_drop]
  rw [l.path_of_split hsplit]
  exact List.mem_append_left _ (List.mem_take_iff_getElem.mpr ⟨i, by omega, rfl⟩)

/-- A property that the line of an element inherits from it holds of a beginning of every
line. -/
theorem filter_append_rest {p : α → Bool} (h : ∀ x y, x ∈ l.path y → p y = true → p x = true)
    (a : α) : (l.path a).filter p ++ (l.path a).filter (fun x ↦ !p x) = l.path a :=
  filter_append_others ((l.pairwise_path a).imp fun hxy ↦ h _ _ hxy)

theorem path_antisymm (h : a ∈ l.path b) (h' : b ∈ l.path a) : l.path a = l.path b :=
  (l.begins a b h).eq_of_length_le (l.begins b a h').length_le

section Fork

variable [DecidableEq α]

/-- What the line of `a` shares with the line of `t`. -/
def shared (a t : α) : List α := (l.path a).filter (· ∈ l.path t)

/-- What the line of `t` has behind what it shares with the line of `a`. -/
def apart (a t : α) : List α := (l.path t).filter (· ∉ l.path a)

theorem mem_shared : b ∈ l.shared a t ↔ b ∈ l.path a ∧ b ∈ l.path t := by
  rw [shared, List.mem_filter, decide_eq_true_eq]

theorem mem_apart : b ∈ l.apart a t ↔ b ∈ l.path t ∧ b ∉ l.path a := by
  rw [apart, List.mem_filter, decide_eq_true_eq]

theorem shared_append_apart (a t : α) : l.shared a t ++ l.apart t a = l.path a := by
  have hline := l.filter_append_rest (p := (· ∈ l.path t))
    (fun x y hxy hy ↦ decide_eq_true (l.mem_trans hxy (of_decide_eq_true hy))) a
  rw [shared, apart]
  simpa only [decide_not] using hline

/-- What two lines share is the line of its last element. -/
theorem shared_eq_path {front : List α} (h : l.shared a t = front ++ [c]) :
    l.shared a t = l.path c ∧ c ∈ l.path a ∧ c ∈ l.path t := by
  have hsplit : l.path a = front ++ c :: l.apart t a := by
    rw [← l.shared_append_apart a t, h, List.append_assoc]
    rfl
  have hc : c ∈ l.shared a t := by
    rw [h]
    exact List.mem_append_right _ (List.mem_singleton_self c)
  exact ⟨h.trans (l.path_of_split hsplit).symm, l.mem_shared.mp hc⟩

theorem shared_comm (a t : α) : l.shared a t = l.shared t a := by
  rcases List.eq_nil_or_concat (l.shared a t) with hnil | ⟨front, c, hc⟩
  · have hnone : l.shared t a = [] := by
      rw [List.eq_nil_iff_forall_not_mem] at hnil ⊢
      intro x hx
      exact hnil x (l.mem_shared.mpr (l.mem_shared.mp hx).symm)
    rw [hnil, hnone]
  · rw [List.concat_eq_append] at hc
    obtain ⟨heq, hca, hct⟩ := l.shared_eq_path hc
    have hmem : c ∈ l.shared t a := l.mem_shared.mpr ⟨hct, hca⟩
    rcases List.eq_nil_or_concat (l.shared t a) with hnil | ⟨front', d, hd⟩
    · rw [hnil] at hmem
      cases hmem
    · rw [List.concat_eq_append] at hd
      obtain ⟨heq', hdt, hda⟩ := l.shared_eq_path hd
      have hcd : c ∈ l.path d := heq' ▸ hmem
      have hdc : d ∈ l.path c := heq ▸ l.mem_shared.mpr ⟨hda, hdt⟩
      rw [heq, heq', l.path_antisymm hcd hdc]

theorem shared_append_apart' (a t : α) : l.shared a t ++ l.apart a t = l.path t := by
  rw [l.shared_comm, l.shared_append_apart]

/-- The line of an element behind the fork. -/
theorem path_of_apart {front rest : List α} (h : l.apart a t = front ++ b :: rest) :
    l.path b = l.shared a t ++ (front ++ [b]) := by
  have hsplit : l.path t = (l.shared a t ++ front) ++ b :: rest := by
    rw [← l.shared_append_apart' a t, h, List.append_assoc]
  rw [l.path_of_split hsplit, List.append_assoc]

/-- **What is held, cut back.**  Something of the line of `a` is held behind a base.  What
it has in common with the line of `t` is all that the lines share behind the base, or else
all that is held, with a gap behind it. -/
theorem cut {base held : List α} (h : base ++ held <+: l.path a) (t : α) :
    ∃ kept, base.filter (· ∈ l.path t) ++ kept = l.shared a t ∧
      ((∃ rest, held = kept ++ rest ∧ ∀ x ∈ rest, x ∉ l.path t) ∨
        ∃ gap, kept = held ++ gap ∧ ∀ x ∈ held, x ∈ l.path t) := by
  have hshared : l.shared a t <+: l.path a := ⟨_, l.shared_append_apart a t⟩
  have hon : ∀ x ∈ l.shared a t, x ∈ l.path t := fun x hx ↦ (l.mem_shared.mp hx).2
  have hall : ∀ xs : List α, xs ⊆ l.shared a t → xs.filter (· ∈ l.path t) = xs :=
    fun xs hxs ↦ List.filter_eq_self.mpr fun x hx ↦ decide_eq_true (hon x (hxs hx))
  rcases List.prefix_or_prefix_of_prefix h hshared with ⟨gap, hgap⟩ | ⟨rest, hrest⟩
  · have hbase : base ⊆ l.shared a t := by
      rw [← hgap, List.append_assoc]
      exact List.subset_append_left _ _
    have hheld : held ⊆ l.shared a t := by
      rw [← hgap, List.append_assoc]
      exact fun x hx ↦ List.mem_append_right _ (List.mem_append_left _ hx)
    refine ⟨held ++ gap, ?_, .inr ⟨gap, rfl, fun x hx ↦ hon x (hheld hx)⟩⟩
    rw [hall base hbase, ← List.append_assoc, hgap]
  · have hout : ∀ x ∈ rest, x ∉ l.path t := by
      have hfront : rest <+: l.apart t a := by
        rw [← hrest, ← l.shared_append_apart a t] at h
        exact (List.prefix_append_right_inj _).mp h
      exact fun x hx hxt ↦ (l.mem_apart.mp (hfront.subset hx)).2 hxt
    rcases List.append_eq_append_iff.mp hrest with ⟨more, hbase, hmore⟩ | ⟨kept, hkept, hheld⟩
    · have hnone : more.filter (· ∈ l.path t) = [] := by
        refine List.filter_eq_nil_iff.mpr fun x hx ↦ ?_
        rw [decide_eq_true_eq]
        exact hout x (hmore ▸ List.mem_append_left _ hx)
      refine ⟨[], ?_, .inl ⟨held, rfl, fun x hx ↦ ?_⟩⟩
      · rw [hbase, List.filter_append, hnone, hall _ (List.Subset.refl _), List.append_nil,
          List.append_nil]
      · exact hout x (hmore ▸ List.mem_append_right _ hx)
    · refine ⟨kept, ?_, .inl ⟨rest, hheld, hout⟩⟩
      have hbase : base ⊆ l.shared a t := hkept ▸ List.subset_append_left _ _
      rw [hall base hbase, hkept]

end Fork

end Lineage
