import Mathlib.Data.List.Sort
import Mathlib.Data.List.Nodup
import Mathlib.Tactic.Common

/-!
# Fields sorted by their keys

A list of pairs sorted by an order of the keys, and when two orders sort it alike.
-/

universe u v w

namespace KeySort

variable {κ : Type u} {α : Type v} {β : Type w}

/-- Pairs sorted by their keys. -/
def sortKeys (le : κ → κ → Bool) (fields : List (κ × α)) : List (κ × α) :=
  fields.insertionSort fun f g ↦ le f.1 g.1 = true

/-- A test that is a linear order. -/
structure KeyOrder (le : κ → κ → Bool) : Prop where
  total : ∀ a b, le a b = true ∨ le b a = true
  trans : ∀ a b c, le a b = true → le b c = true → le a c = true
  antisymm : ∀ a b, le a b = true → le b a = true → a = b

/-- Two orders agree on every two keys of a list. -/
def ordersAgree (le le' : κ → κ → Bool) (keys : List κ) : Bool :=
  keys.all fun a ↦ keys.all fun b ↦ le a b == le' a b

variable {le le' : κ → κ → Bool}

theorem ordersAgree_iff {keys : List κ} :
    ordersAgree le le' keys = true ↔ ∀ a ∈ keys, ∀ b ∈ keys, le a b = le' a b := by
  simp only [ordersAgree, List.all_eq_true, beq_iff_eq]

theorem sortKeys_perm (le : κ → κ → Bool) (fields : List (κ × α)) :
    (sortKeys le fields).Perm fields :=
  List.perm_insertionSort _ fields

theorem sortKeys_map (le : κ → κ → Bool) (g : α → β) (fields : List (κ × α)) :
    sortKeys le (fields.map fun f ↦ (f.1, g f.2)) =
      (sortKeys le fields).map fun f ↦ (f.1, g f.2) :=
  (List.map_insertionSort (fun f g : κ × α ↦ le f.1 g.1 = true)
    (fun f g : κ × β ↦ le f.1 g.1 = true) _ _ fun _ _ _ _ ↦ Iff.rfl).symm

theorem sortKeys_keys (le : κ → κ → Bool) (fields : List (κ × α)) :
    (sortKeys le fields).map Prod.fst =
      (fields.map Prod.fst).insertionSort fun a b ↦ le a b = true :=
  List.map_insertionSort (fun f g : κ × α ↦ le f.1 g.1 = true) (fun a b ↦ le a b = true)
    _ _ fun _ _ _ _ ↦ Iff.rfl

theorem KeyOrder.pairwise (h : KeyOrder le) (f : α → κ) (l : List α) :
    (l.insertionSort fun a b ↦ le (f a) (f b) = true).Pairwise
      fun a b ↦ le (f a) (f b) = true := by
  have htotal : Std.Total fun a b ↦ le (f a) (f b) = true := ⟨fun a b ↦ h.total _ _⟩
  have htrans : IsTrans α fun a b ↦ le (f a) (f b) = true := ⟨fun a b c ↦ h.trans _ _ _⟩
  exact List.pairwise_insertionSort _ l

theorem KeyOrder.pairwise_sortKeys (h : KeyOrder le) (fields : List (κ × α)) :
    (sortKeys le fields).Pairwise fun f g ↦ le f.1 g.1 = true :=
  h.pairwise Prod.fst fields

/-- Sorted fields of distinct keys are the fields sorted. -/
theorem KeyOrder.eq_sortKeys (h : KeyOrder le) {fields sorted : List (κ × α)}
    (hperm : sorted.Perm fields) (hsorted : sorted.Pairwise fun f g ↦ le f.1 g.1 = true)
    (hnodup : (fields.map Prod.fst).Nodup) : sorted = sortKeys le fields := by
  apply List.Perm.eq_of_pairwise _ hsorted (h.pairwise_sortKeys fields)
    (hperm.trans (sortKeys_perm le fields).symm)
  intro f g hf hg hfg hgf
  exact List.inj_on_of_nodup_map hnodup (hperm.mem_iff.mp hf)
    ((sortKeys_perm le fields).mem_iff.mp hg) (h.antisymm _ _ hfg hgf)

/-- Two orders that sort distinct keys alike agree on every two of them. -/
theorem KeyOrder.ordersAgree_of_sort (h : KeyOrder le) (h' : KeyOrder le') {keys : List κ}
    (heq : (keys.insertionSort fun a b ↦ le a b = true) =
      keys.insertionSort fun a b ↦ le' a b = true) : ordersAgree le le' keys = true := by
  have hrefl : ∀ c, le c c = le' c c := fun c ↦
    ((h.total c c).elim id id).trans ((h'.total c c).elim id id).symm
  have hflip : ∀ a b, le a b = true → le' a b = true → le b a = le' b a := by
    intro a b hab hab'
    rw [Bool.eq_iff_iff]
    constructor
    · intro hba
      rw [h.antisymm _ _ hab hba, ← hrefl]
      exact h.antisymm _ _ hab hba ▸ hba
    · intro hba
      rw [h'.antisymm _ _ hab' hba, hrefl]
      exact h'.antisymm _ _ hab' hba ▸ hba
  have hle := h.pairwise id keys
  have hle' := h'.pairwise id keys
  simp only [id] at hle hle'
  rw [← heq] at hle'
  have hboth := hle.and hle'
  have hmem : ∀ c, c ∈ (keys.insertionSort fun a b ↦ le a b = true) ↔ c ∈ keys :=
    fun c ↦ (List.perm_insertionSort _ keys).mem_iff
  rw [ordersAgree_iff]
  intro a ha b hb
  exact List.Pairwise.forall_of_forall_of_flip (R := fun a b ↦ le a b = le' a b)
    (fun c _ ↦ hrefl c) (hboth.imp fun hab ↦ hab.1.trans hab.2.symm)
    (hboth.imp fun hab ↦ hflip _ _ hab.1 hab.2) ((hmem a).mpr ha) ((hmem b).mpr hb)

/-- Fields of distinct keys are sorted alike by orders that agree on the keys. -/
theorem KeyOrder.sortKeys_eq (h : KeyOrder le) (h' : KeyOrder le') {fields : List (κ × α)}
    (hnodup : (fields.map Prod.fst).Nodup)
    (hagree : ordersAgree le le' (fields.map Prod.fst) = true) :
    sortKeys le fields = sortKeys le' fields := by
  rw [ordersAgree_iff] at hagree
  apply h'.eq_sortKeys (sortKeys_perm le fields) _ hnodup
  apply (h.pairwise_sortKeys fields).imp_of_mem
  intro f g hf hg hfg
  have hkey : ∀ e ∈ sortKeys le fields, e.1 ∈ fields.map Prod.fst :=
    fun e he ↦ List.mem_map_of_mem ((sortKeys_perm le fields).mem_iff.mp he)
  exact (hagree f.1 (hkey f hf) g.1 (hkey g hg)).symm.trans hfg

end KeySort
