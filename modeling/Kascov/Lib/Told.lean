import Mathlib.Data.List.Basic
import Mathlib.Tactic.Common

/-!
# Telling an ordered log

A log is kept in the order of its numbers.  What it holds behind one number and up to another
is a window of it.  A run of frames, some of which carry a record or the number that has been
reached, tells a window when it carries the window's records, each once, and its numbers rise.
-/

universe u v

namespace Told

/-! ## Windows -/

section Window

variable {α : Type u} (key : α → Nat)

/-- What a log holds behind `a`, up to `b`. -/
def window (xs : List α) (a b : Nat) : List α := xs.filter fun x ↦ a < key x ∧ key x ≤ b

/-- In the order of the numbers. -/
abbrev Ordered (xs : List α) : Prop := xs.Pairwise fun x y ↦ key x < key y

variable {key} {xs ys : List α} {a b c : Nat} {x : α}

theorem mem_window : x ∈ window key xs a b ↔ x ∈ xs ∧ a < key x ∧ key x ≤ b := by
  rw [window, List.mem_filter, decide_eq_true_eq]

theorem window_cons_of_mem (h : a < key x ∧ key x ≤ b) :
    window key (x :: xs) a b = x :: window key xs a b :=
  List.filter_cons_of_pos (decide_eq_true h)

theorem window_cons_of_not_mem (h : ¬(a < key x ∧ key x ≤ b)) :
    window key (x :: xs) a b = window key xs a b :=
  List.filter_cons_of_neg (by rw [decide_eq_true_eq]; exact h)

theorem window_self (xs : List α) (a : Nat) : window key xs a a = [] := by
  refine List.filter_eq_nil_iff.mpr fun x _ ↦ ?_
  rw [decide_eq_true_eq]
  omega

theorem window_sublist (xs : List α) (a b : Nat) : (window key xs a b).Sublist xs :=
  List.filter_sublist

theorem window_append (xs ys : List α) (a b : Nat) :
    window key (xs ++ ys) a b = window key xs a b ++ window key ys a b := List.filter_append ..

/-- What lies beyond a window does not show in it. -/
theorem window_append_of_lt (h : ∀ y ∈ ys, b < key y) :
    window key (xs ++ ys) a b = window key xs a b := by
  have hnone : window key ys a b = [] := by
    refine List.eq_nil_iff_forall_not_mem.mpr fun y hy ↦ ?_
    obtain ⟨hmem, -, hle⟩ := mem_window.mp hy
    exact absurd (h y hmem) (Nat.not_lt.mpr hle)
  rw [window_append, hnone, List.append_nil]

/-- Windows that meet. -/
theorem window_append_window (h : Ordered key xs) (hab : a ≤ b) (hbc : b ≤ c) :
    window key xs a b ++ window key xs b c = window key xs a c := by
  induction xs with
  | nil => rfl
  | cons x xs ih =>
      obtain ⟨hx, hxs⟩ := List.pairwise_cons.mp h
      have ih := ih hxs
      by_cases hlow : key x ≤ b
      · have hright : window key (x :: xs) b c = window key xs b c :=
          window_cons_of_not_mem (by omega)
        rw [hright]
        by_cases ha : a < key x
        · rw [window_cons_of_mem ⟨ha, hlow⟩, window_cons_of_mem ⟨ha, by omega⟩, List.cons_append,
            ih]
        · rw [window_cons_of_not_mem (by omega), window_cons_of_not_mem (by omega), ih]
      · -- the window up to `b` is over
        have hbeyond : ∀ y ∈ x :: xs, b < key y := by
          intro y hy
          rcases List.mem_cons.mp hy with rfl | hy
          · exact Nat.not_le.mp hlow
          · have hlt := hx y hy
            omega
        have hover : window key (x :: xs) a b = [] := by
          refine List.filter_eq_nil_iff.mpr fun y hy ↦ ?_
          have hlt := hbeyond y hy
          rw [decide_eq_true_eq]
          omega
        rw [hover, List.nil_append]
        refine List.filter_congr fun y hy ↦ ?_
        have hlt := hbeyond y hy
        rw [decide_eq_decide]
        omega

/-- A window does not depend on what is let through outside it. -/
theorem window_filter_congr {p q : α → Bool}
    (h : ∀ x ∈ xs, a < key x → key x ≤ b → p x = q x) :
    window key (xs.filter p) a b = window key (xs.filter q) a b := by
  unfold window
  rw [List.filter_filter, List.filter_filter]
  refine List.filter_congr fun x hx ↦ ?_
  by_cases hin : a < key x ∧ key x ≤ b
  · rw [h x hx hin.1 hin.2]
  · simp only [hin, decide_false, Bool.false_and]

/-- The window up to the next record. -/
theorem window_next (h : Ordered key xs) (hx : x ∈ xs) (ha : a < key x)
    (hnext : ∀ y ∈ xs, a < key y → key x ≤ key y) : window key xs a (key x) = [x] := by
  obtain ⟨before, after, rfl⟩ := List.mem_iff_append.mp hx
  obtain ⟨-, hafter, hbefore⟩ := List.pairwise_append.mp h
  have hleft : window key before a (key x) = [] := by
    refine List.filter_eq_nil_iff.mpr fun y hy ↦ ?_
    have hlt := hbefore y hy x List.mem_cons_self
    have hle := hnext y (List.mem_append_left _ hy)
    rw [decide_eq_true_eq]
    omega
  have hright : window key after a (key x) = [] := by
    refine List.filter_eq_nil_iff.mpr fun y hy ↦ ?_
    have hlt := (List.pairwise_cons.mp hafter).1 y hy
    rw [decide_eq_true_eq]
    omega
  rw [window_append, hleft, List.nil_append, window_cons_of_mem ⟨ha, Nat.le_refl _⟩, hright]

/-- A page that begins what lies behind `a` is a window. -/
theorem window_page (h : Ordered key xs) {page rest : List α}
    (hpage : xs.filter (a < key ·) = page ++ rest) (hlast : page.getLast? = some x) :
    window key xs a (key x) = page := by
  obtain ⟨front, rfl⟩ := List.getLast?_eq_some_iff.mp hlast
  have hordered : Ordered key ((front ++ [x]) ++ rest) := hpage ▸ h.sublist List.filter_sublist
  obtain ⟨hfront, -, hrest⟩ := List.pairwise_append.mp hordered
  have hsplit : window key xs a (key x) =
      ((front ++ [x]) ++ rest).filter fun y ↦ decide (key y ≤ key x) := by
    rw [← hpage, List.filter_filter]
    refine List.filter_congr fun y _ ↦ ?_
    rw [Bool.decide_and, Bool.and_comm]
  have hkeep : (front ++ [x]).filter (fun y ↦ decide (key y ≤ key x)) = front ++ [x] := by
    refine List.filter_eq_self.mpr fun y hy ↦ decide_eq_true ?_
    rcases List.mem_append.mp hy with hy | hy
    · exact Nat.le_of_lt ((List.pairwise_append.mp hfront).2.2 y hy x (List.mem_singleton_self x))
    · exact Nat.le_of_eq (congrArg key (List.mem_singleton.mp hy))
  have hdrop : rest.filter (fun y ↦ decide (key y ≤ key x)) = [] := by
    refine List.filter_eq_nil_iff.mpr fun y hy ↦ ?_
    rw [decide_eq_true_eq]
    exact Nat.not_le.mpr (hrest x (List.mem_append_right _ (List.mem_singleton_self x)) y hy)
  rw [hsplit, List.filter_append, hkeep, hdrop, List.append_nil]

/-- What is bounded of a log is the beginning of it. -/
theorem front_filter_le (h : Ordered key xs) (b : Nat) :
    xs.filter (fun x ↦ decide (key x ≤ b)) <+: xs := by
  induction xs with
  | nil => exact List.prefix_refl _
  | cons x xs ih =>
      obtain ⟨hx, hxs⟩ := List.pairwise_cons.mp h
      by_cases hb : key x ≤ b
      · have hcons : (x :: xs).filter (fun x ↦ decide (key x ≤ b)) =
            x :: xs.filter fun x ↦ decide (key x ≤ b) :=
          List.filter_cons_of_pos (decide_eq_true hb)
        rw [hcons]
        exact List.cons_prefix_cons.mpr ⟨rfl, ih hxs⟩
      · have hnone : (x :: xs).filter (fun x ↦ decide (key x ≤ b)) = [] := by
          refine List.filter_eq_nil_iff.mpr fun y hy ↦ ?_
          rw [decide_eq_true_eq]
          rcases List.mem_cons.mp hy with rfl | hy
          · exact hb
          · have hlt := hx y hy
            omega
        rw [hnone]
        exact List.nil_prefix

end Window

/-! ## Telling -/

section Tells

variable {α : Type u} {φ : Type v} (key : α → Nat) (record : φ → Option α) (id : φ → Option Nat)
variable (m : α → Bool)

/-- The number reached by a run of frames that starts at `a`. -/
def lastId (a : Nat) (frames : List φ) : Nat := (frames.filterMap id).getLast?.getD a

/-- The frames tell what matches of a window. -/
structure Tells (xs : List α) (a b : Nat) (frames : List φ) : Prop where
  le : a ≤ b
  records : frames.filterMap record = (window key xs a b).filter m
  ids : (frames.filterMap id).Pairwise (· < ·)
  bounds : ∀ n ∈ frames.filterMap id, a < n ∧ n ≤ b

variable {key record id m} {xs ys : List α} {a b c : Nat} {F G : List φ} {f : φ} {x : α}

theorem lastId_of_none (h : F.filterMap id = []) : lastId id a F = a := by
  rw [lastId, h]
  rfl

theorem lastId_append_singleton {n : Nat} (h : id f = some n) :
    lastId id a (F ++ [f]) = n := by
  rw [lastId, List.filterMap_append, List.filterMap_cons_some h, List.filterMap_nil,
    List.getLast?_concat]
  rfl

/-- A run that goes on from another one. -/
theorem lastId_append (a : Nat) (F G : List φ) :
    lastId id a (F ++ G) = lastId id (lastId id a F) G := by
  rw [lastId, lastId, lastId, List.filterMap_append, List.getLast?_append]
  cases (G.filterMap id).getLast? with
  | none => rfl
  | some n => rfl

/-- The number reached at any moment is within the window. -/
theorem Tells.lastId_front (h : Tells key record id m xs a b (F ++ G)) :
    a ≤ lastId id a F ∧ lastId id a F ≤ b := by
  unfold lastId
  cases hlast : (F.filterMap id).getLast? with
  | none => exact ⟨Nat.le_refl _, h.le⟩
  | some n =>
      have hmem : n ∈ (F ++ G).filterMap id := by
        rw [List.filterMap_append]
        exact List.mem_append_left _ (List.mem_of_getLast? hlast)
      exact ⟨Nat.le_of_lt (h.bounds n hmem).1, (h.bounds n hmem).2⟩

theorem Tells.lastId_le (h : Tells key record id m xs a b F) :
    a ≤ lastId id a F ∧ lastId id a F ≤ b :=
  Tells.lastId_front (G := []) (by rw [List.append_nil]; exact h)

/-- Nothing matches, and nothing is told. -/
theorem tells_nil (hab : a ≤ b) (h : (window key xs a b).filter m = []) :
    Tells key record id m xs a b ([] : List φ) where
  le := hab
  records := h.symm
  ids := List.Pairwise.nil
  bounds := List.forall_mem_nil _

theorem tells_self (xs : List α) (a : Nat) : Tells key record id m xs a a ([] : List φ) :=
  tells_nil (Nat.le_refl a) (by rw [window_self]; rfl)

/-- **Runs follow each other.** -/
theorem Tells.trans (hordered : Ordered key xs) (h : Tells key record id m xs a b F)
    (h' : Tells key record id m xs b c G) : Tells key record id m xs a c (F ++ G) where
  le := Nat.le_trans h.le h'.le
  records := by
    rw [List.filterMap_append, h.records, h'.records, ← List.filter_append,
      window_append_window hordered h.le h'.le]
  ids := by
    rw [List.filterMap_append, List.pairwise_append]
    exact ⟨h.ids, h'.ids, fun n hn n' hn' ↦
      Nat.lt_of_le_of_lt (h.bounds n hn).2 (h'.bounds n' hn').1⟩
  bounds n hn := by
    rw [List.filterMap_append] at hn
    have hab := h.le
    have hbc := h'.le
    rcases List.mem_append.mp hn with hn | hn
    · have hb := h.bounds n hn
      omega
    · have hb := h'.bounds n hn
      omega

/-- Frames that carry nothing. -/
theorem tells_silent (hrecord : F.filterMap record = []) (hid : F.filterMap id = [])
    (xs : List α) (a : Nat) : Tells key record id m xs a a F where
  le := Nat.le_refl a
  records := by rw [hrecord, window_self]; rfl
  ids := by rw [hid]; exact List.Pairwise.nil
  bounds := by rw [hid]; exact List.forall_mem_nil _

/-- The number reached may be told. -/
theorem Tells.checkpoint (h : Tells key record id m xs a b F) (hrecord : record f = none)
    (hid : id f = some b) (hlast : lastId id a F < b) :
    Tells key record id m xs a b (F ++ [f]) where
  le := h.le
  records := by
    rw [List.filterMap_append, h.records, List.filterMap_cons_none hrecord]
    exact List.append_nil _
  ids := by
    rw [List.filterMap_append, List.filterMap_cons_some hid, List.pairwise_append]
    refine ⟨h.ids, List.pairwise_singleton _ _, fun n hn n' hn' ↦ ?_⟩
    rw [List.mem_singleton.mp hn']
    -- the numbers rise to the last one
    obtain ⟨front, last, hsplit⟩ := List.eq_nil_or_concat (F.filterMap id) |>.resolve_left
      (List.ne_nil_of_mem hn)
    rw [List.concat_eq_append] at hsplit
    rw [lastId, hsplit, List.getLast?_concat] at hlast
    have hids := h.ids
    rw [hsplit, List.pairwise_append] at hids
    rw [hsplit] at hn
    rcases List.mem_append.mp hn with hn | hn
    · exact Nat.lt_trans (hids.2.2 n hn last (List.mem_singleton_self last)) hlast
    · rw [List.mem_singleton.mp hn]
      exact hlast
  bounds n hn := by
    rw [List.filterMap_append, List.filterMap_cons_some hid] at hn
    rcases List.mem_append.mp hn with hn | hn
    · exact h.bounds n hn
    · rw [List.mem_singleton.mp hn]
      exact ⟨Nat.lt_of_le_of_lt h.lastId_le.1 hlast, Nat.le_refl b⟩

/-- What is told depends on what the frames carry only. -/
theorem Tells.of_eq (h : Tells key record id m xs a b F)
    (hrecord : G.filterMap record = F.filterMap record) (hid : G.filterMap id = F.filterMap id) :
    Tells key record id m xs a b G where
  le := h.le
  records := hrecord.trans h.records
  ids := hid ▸ h.ids
  bounds := hid ▸ h.bounds

/-- What is told depends on the window only. -/
theorem Tells.congr (h : Tells key record id m xs a b F)
    (heq : window key ys a b = window key xs a b) : Tells key record id m ys a b F where
  le := h.le
  records := h.records.trans (by rw [heq])
  ids := h.ids
  bounds := h.bounds

/-- A frame for each record that matches. -/
theorem tells_records (hab : a ≤ b) (hordered : Ordered key xs) (hid : F.filterMap id =
    (F.filterMap record).map key) (hrecords : F.filterMap record = (window key xs a b).filter m) :
    Tells key record id m xs a b F where
  le := hab
  records := hrecords
  ids := by
    rw [hid, hrecords, List.pairwise_map]
    exact (hordered.sublist (window_sublist ..)).sublist List.filter_sublist
  bounds n hn := by
    rw [hid, hrecords] at hn
    obtain ⟨x, hx, rfl⟩ := List.mem_map.mp hn
    exact (mem_window.mp (List.mem_of_mem_filter hx)).2

section Tagged

variable (htag : ∀ f x, record f = some x → id f = some (key x))

include htag

theorem mem_ids_of_mem_records (hx : x ∈ F.filterMap record) : key x ∈ F.filterMap id := by
  obtain ⟨f, hf, hrecord⟩ := List.mem_filterMap.mp hx
  exact List.mem_filterMap.mpr ⟨f, hf, htag f x hrecord⟩

/-- **What has been told at any moment** is the window up to the number reached. -/
theorem Tells.front (h : Tells key record id m xs a b (F ++ G)) :
    Tells key record id m xs a (lastId id a F) F := by
  have hids := h.ids
  rw [List.filterMap_append, List.pairwise_append] at hids
  obtain ⟨hF, -, hFG⟩ := hids
  have hboundF : ∀ n ∈ F.filterMap id, a < n ∧ n ≤ b := fun n hn ↦
    h.bounds n (by rw [List.filterMap_append]; exact List.mem_append_left _ hn)
  have hboundG : ∀ n ∈ G.filterMap id, a < n ∧ n ≤ b := fun n hn ↦
    h.bounds n (by rw [List.filterMap_append]; exact List.mem_append_right _ hn)
  -- the numbers of `F` end with the last one, and those of `G` come behind it
  have hup : ∀ n ∈ F.filterMap id, n ≤ lastId id a F := by
    intro n hn
    obtain ⟨front, last, hsplit⟩ := List.eq_nil_or_concat (F.filterMap id) |>.resolve_left
      (List.ne_nil_of_mem hn)
    rw [List.concat_eq_append] at hsplit
    rw [lastId, hsplit, List.getLast?_concat]
    rw [hsplit] at hn hF
    rcases List.mem_append.mp hn with hn | hn
    · exact Nat.le_of_lt ((List.pairwise_append.mp hF).2.2 n hn last (List.mem_singleton_self _))
    · rw [List.mem_singleton.mp hn]
      exact Nat.le_refl last
  have hbehind : ∀ n ∈ G.filterMap id, lastId id a F < n := by
    intro n hn
    unfold lastId
    cases hlast : (F.filterMap id).getLast? with
    | none => exact (hboundG n hn).1
    | some last => exact hFG last (List.mem_of_getLast? hlast) n hn
  have hle := h.lastId_front
  refine ⟨hle.1, ?_, hF, fun n hn ↦ ⟨(hboundF n hn).1, hup n hn⟩⟩
  have hcut : (window key xs a (lastId id a F)).filter m =
      ((F ++ G).filterMap record).filter fun x ↦ decide (key x ≤ lastId id a F) := by
    rw [h.records, List.filter_filter, window, window, List.filter_filter, List.filter_filter]
    refine List.filter_congr fun x _ ↦ ?_
    have hb := hle.2
    rw [Bool.eq_iff_iff]
    simp only [Bool.and_eq_true, decide_eq_true_eq]
    constructor
    · rintro ⟨hm, hlow, hhigh⟩
      exact ⟨⟨hhigh, hm⟩, hlow, Nat.le_trans hhigh hb⟩
    · rintro ⟨⟨hhigh, hm⟩, hlow, -⟩
      exact ⟨hm, hlow, hhigh⟩
  rw [hcut, List.filterMap_append, List.filter_append, List.filter_eq_self.mpr fun x hx ↦
    decide_eq_true (hup _ (mem_ids_of_mem_records htag hx)), List.filter_eq_nil_iff.mpr
      fun x hx ↦ ?_, List.append_nil]
  rw [decide_eq_true_eq]
  exact Nat.not_le.mpr (hbehind _ (mem_ids_of_mem_records htag hx))

end Tagged

end Tells

end Told
