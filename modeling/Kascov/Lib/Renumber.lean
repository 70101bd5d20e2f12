import Mathlib.Tactic.Common
import Mathlib.Data.List.Nodup
import Mathlib.Data.List.Sort

/-!
# Renumbering under a unique key

Rows carry distinct keys and are to be renumbered `0, 1, …` in a given order.
A row that moves to its new key may meet a row not moved yet, so the keys are
first *parked* at negative values, one row at a time, and then all flipped back.
This file says where a parked key lands, and what position in an order means.
-/

universe u v

namespace Renumber

/-- Where the key `k` is after each pair `(old, new)` moved the rows of key `old`
to `-(new + 1)`. -/
def park (moves : List (Int × Nat)) (k : Int) : Int :=
  moves.foldl (fun k move ↦ if k = move.1 then -(move.2 : Int) - 1 else k) k

/-- A key that is not moved stays. -/
theorem park_of_notMem {moves : List (Int × Nat)} {k : Int} (h : ∀ move ∈ moves, move.1 ≠ k) :
    park moves k = k := by
  induction moves with
  | nil => rfl
  | cons move rest ih =>
      have hne : ¬k = move.1 := fun heq ↦ h move List.mem_cons_self heq.symm
      show rest.foldl _ (if k = move.1 then _ else k) = k
      rw [if_neg hne]
      exact ih fun m hm ↦ h m (List.mem_cons_of_mem _ hm)

/-- A parked key is negative, so no later move meets it again. -/
theorem park_zipIdx {order : List Int} (hnodup : order.Nodup) (hnonneg : ∀ k ∈ order, 0 ≤ k)
    (start : Nat) {k : Int} (hk : k ∈ order) :
    park (order.zipIdx start) k = -((order.idxOf k + start : Nat) : Int) - 1 := by
  induction order generalizing start with
  | nil => cases hk
  | cons hd tl ih =>
      obtain ⟨hnotMem, htl⟩ := List.nodup_cons.mp hnodup
      rw [List.zipIdx_cons]
      show park (tl.zipIdx (start + 1)) (if k = hd then _ else k) = _
      by_cases heq : k = hd
      · subst heq
        rw [if_pos rfl, List.idxOf_cons_self, Nat.zero_add]
        refine park_of_notMem ?_
        rintro ⟨old, new⟩ hmove hold
        have hge := hnonneg old (List.mem_cons_of_mem _ (List.fst_mem_of_mem_zipIdx hmove))
        change old = _ at hold
        omega
      · rw [if_neg heq, List.idxOf_cons_ne _ (Ne.symm heq)]
        rw [ih htl (fun x hx ↦ hnonneg x (List.mem_cons_of_mem _ hx)) (start + 1)
          ((List.mem_cons.mp hk).resolve_left heq)]
        congr 2
        omega

/-! ## Positions in an order -/

variable {α : Type u} {β : Type v}

/-- In a list without repetition the positions are `0, 1, …`. -/
theorem map_idxOf [DecidableEq α] {l : List α} (h : l.Nodup) :
    l.map (l.idxOf ·) = List.range l.length := by
  refine List.ext_getElem (by simp) fun i h₁ h₂ ↦ ?_
  simp [List.Nodup.idxOf_getElem h]

/-- The earlier of two members is related to the later. -/
theorem rel_of_idxOf_lt [DecidableEq β] {R : α → α → Prop} {f : α → β} {l : List α}
    (hR : l.Pairwise R) (hf : (l.map f).Nodup) {a b : α} (ha : a ∈ l) (hb : b ∈ l)
    (hlt : (l.map f).idxOf (f a) < (l.map f).idxOf (f b)) : R a b := by
  have hget : ∀ c ∈ l, ∃ i, ∃ h : i < l.length, l[i] = c ∧ (l.map f).idxOf (f c) = i := by
    intro c hc
    obtain ⟨i, h, rfl⟩ := List.getElem_of_mem hc
    refine ⟨i, h, rfl, ?_⟩
    have hi : i < (l.map f).length := by rwa [List.length_map]
    have hidx := List.Nodup.idxOf_getElem hf i hi
    rwa [List.getElem_map] at hidx
  obtain ⟨i, hi, rfl, hidxa⟩ := hget a ha
  obtain ⟨j, hj, rfl, hidxb⟩ := hget b hb
  rw [hidxa, hidxb] at hlt
  exact List.pairwise_iff_getElem.mp hR i j hi hj hlt

/-- An order that is `0, 1, …` already has every key at its own position. -/
theorem idxOf_of_dense {order : List Int} (h : ∀ move ∈ order.zipIdx, move.1 = (move.2 : Int))
    {k : Int} (hk : k ∈ order) : (order.idxOf k : Int) = k := by
  have hlt : order.idxOf k < order.length := List.idxOf_lt_length_iff.mpr hk
  have hmem : (order[order.idxOf k], order.idxOf k) ∈ order.zipIdx := by
    rw [List.mem_zipIdx_iff_getElem?]
    exact List.getElem?_eq_getElem hlt
  have heq := h _ hmem
  rw [List.getElem_idxOf hlt] at heq
  exact heq.symm

/-- The keys below all the others among `0 … n - 1` are an initial segment. -/
theorem perm_range_of_lt {ks rs : List Int} {n : Nat}
    (h : (ks ++ rs).Perm ((List.range n).map Int.ofNat)) (hlt : ∀ k ∈ ks, ∀ r ∈ rs, k < r) :
    ks.Perm ((List.range ks.length).map Int.ofNat) := by
  have hks := List.perm_insertionSort (· ≤ ·) ks
  have hrs := List.perm_insertionSort (· ≤ ·) rs
  have hsorted : (ks.insertionSort (· ≤ ·) ++ rs.insertionSort (· ≤ ·)).Pairwise (· ≤ ·) := by
    refine List.pairwise_append.mpr ⟨List.pairwise_insertionSort _ _,
      List.pairwise_insertionSort _ _, fun k hk r hr ↦ ?_⟩
    exact le_of_lt (hlt k (hks.mem_iff.mp hk) r (hrs.mem_iff.mp hr))
  have hrange : ((List.range n).map Int.ofNat).Pairwise (· ≤ ·) := by
    refine List.pairwise_map.mpr (List.pairwise_le_range.imp fun {i j} hij ↦ ?_)
    exact Int.ofNat_le.mpr hij
  have heq := ((hks.append hrs).trans h).eq_of_pairwise' hsorted hrange
  have htake : ks.insertionSort (· ≤ ·) = ((List.range n).map Int.ofNat).take ks.length := by
    rw [← heq, ← hks.length_eq, List.take_left]
  have hlen := h.length_eq
  rw [List.length_append, List.length_map, List.length_range] at hlen
  rw [← List.map_take, List.take_range, min_eq_left (by omega)] at htake
  rw [← htake]
  exact hks.symm

end Renumber
