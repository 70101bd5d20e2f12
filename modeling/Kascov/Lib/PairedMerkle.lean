import Mathlib.Data.Set.Function
import Mathlib.Data.Nat.Bitwise
import Mathlib.Tactic.Common

/-!
# Merkle trees without positions

A tree whose inner nodes hash an unordered pair, and whose odd nodes are promoted.
A proof is the list of the siblings alone.  Leaves and inner nodes share one hash, so
what a proof shows rests on two things: that no two of the inputs hashed collide, and
that the input of a leaf is never the input of a pair.
-/

universe u v

namespace PairedMerkle

variable {ι : Type u} {δ : Type v}

/-! ## The tree over a list of digests -/

section Tree

variable (node : δ → δ → δ)

/-- One level up: neighbours are paired, an odd last node is promoted. -/
def nextLevel : List δ → List δ
  | a :: b :: rest => node a b :: nextLevel rest
  | [a] => [a]
  | [] => []

/-- Levels until one node is left.  The length bounds their number. -/
def rootLoop : Nat → List δ → Option δ
  | 0, level => level.head?
  | fuel + 1, level =>
      if 1 < level.length then rootLoop fuel (nextLevel node level) else level.head?

def root (leaves : List δ) : Option δ := rootLoop node leaves.length leaves

/-- The siblings from a position up; a promoted node has none. -/
def proofLoop : Nat → List δ → Nat → List δ
  | 0, _, _ => []
  | fuel + 1, level, i =>
      if 1 < level.length then
        level[i ^^^ 1]?.toList ++ proofLoop fuel (nextLevel node level) (i >>> 1)
      else []

def proof (leaves : List δ) (i : Nat) : List δ := proofLoop node leaves.length leaves i

/-- From a digest up through the siblings. -/
def walk (h : δ) (steps : List δ) : δ := steps.foldl node h

@[simp] theorem nextLevel_single (a : δ) : nextLevel node [a] = [a] := by
  rw [nextLevel]

theorem length_nextLevel : ∀ level : List δ, (nextLevel node level).length = (level.length + 1) / 2
  | [] => by rw [nextLevel, List.length_nil]
  | [a] => by rw [nextLevel_single, List.length_singleton]
  | _ :: _ :: rest => by
      rw [nextLevel, List.length_cons, length_nextLevel rest, List.length_cons, List.length_cons]
      omega

theorem xor_one_add_two (i : Nat) : (i + 2) ^^^ 1 = (i ^^^ 1) + 2 := by
  have hdiv : ∀ n : Nat, (n ^^^ 1) / 2 = n / 2 := fun n ↦ by simp [Nat.xor_div_two]
  have hmod : ∀ n : Nat, (n ^^^ 1) % 2 = (n + 1) % 2 := fun n ↦ Nat.xor_mod_two_eq
  have h := hdiv i
  have h' := hdiv (i + 2)
  have hm := hmod i
  have hm' := hmod (i + 2)
  omega

/-- The parent of a node is what one step of its proof computes. -/
theorem nextLevel_getElem? (hcomm : ∀ a b, node a b = node b a) : ∀ (level : List δ) (i : Nat)
    (d : δ), level[i]? = some d →
      (nextLevel node level)[i / 2]? = some (walk node d level[i ^^^ 1]?.toList)
  | [], i, d, h => by simp at h
  | [a], i, d, h => by
      cases i with
      | zero =>
          rw [nextLevel_single]
          exact h
      | succ i => simp at h
  | a :: b :: rest, 0, d, h => by
      rw [List.getElem?_cons_zero, Option.some.injEq] at h
      subst h
      rfl
  | a :: b :: rest, 1, d, h => by
      rw [List.getElem?_cons_succ, List.getElem?_cons_zero, Option.some.injEq] at h
      subst h
      exact congrArg some (hcomm a b)
  | a :: b :: rest, i + 2, d, h => by
      have hrest := nextLevel_getElem? hcomm rest i d h
      rw [xor_one_add_two, Nat.add_div_right i (by decide : 0 < 2)]
      exact hrest

theorem head?_of_single {level : List δ} {i : Nat} {d : δ} (hlen : level.length ≤ 1)
    (h : level[i]? = some d) : level.head? = some d := by
  obtain ⟨hi, -⟩ := List.getElem?_eq_some_iff.mp h
  have hzero : i = 0 := by omega
  rw [List.head?_eq_getElem?, ← hzero]
  exact h

/-- Every leaf walks to the root with its own proof. -/
theorem walk_proofLoop (hcomm : ∀ a b, node a b = node b a) {fuel : Nat} {level : List δ}
    {i : Nat} {d : δ} (hfuel : level.length ≤ fuel + 1) (h : level[i]? = some d) :
    rootLoop node fuel level = some (walk node d (proofLoop node fuel level i)) := by
  induction fuel generalizing level i d with
  | zero => exact head?_of_single hfuel h
  | succ fuel ih =>
      rw [rootLoop, proofLoop]
      by_cases hlen : 1 < level.length
      · have hup := length_nextLevel node level
        rw [if_pos hlen, if_pos hlen, Nat.shiftRight_one,
          ih (by omega) (nextLevel_getElem? node hcomm level i d h), walk, walk, walk,
          List.foldl_append]
      · rw [if_neg hlen, if_neg hlen]
        exact head?_of_single (by omega) h

theorem walk_proof (hcomm : ∀ a b, node a b = node b a) {leaves : List δ} {i : Nat} {d : δ}
    (h : leaves[i]? = some d) : root node leaves = some (walk node d (proof node leaves i)) :=
  walk_proofLoop node hcomm (Nat.le_succ _) h

end Tree

/-! ## What a proof shows -/

/-- An input for an unordered pair, which tells the pair and nothing else. -/
structure PairInput (pair : δ → δ → ι) : Prop where
  comm : ∀ a b, pair a b = pair b a
  inj : ∀ a b c d, pair a b = pair c d → a = c ∧ b = d ∨ a = d ∧ b = c

section Sound

variable (hash : ι → δ) (pair : δ → δ → ι)

/-- The hash of a pair. -/
def nodeHash (a b : δ) : δ := hash (pair a b)

/-- The inputs a walk hashes. -/
def walkInputs : δ → List δ → List ι
  | _, [] => []
  | h, s :: steps => pair h s :: walkInputs (nodeHash hash pair h s) steps

/-- The inputs one level hashes. -/
def levelInputs : List δ → List ι
  | a :: b :: rest => pair a b :: levelInputs rest
  | _ => []

/-- The inputs hashed on the way to the root. -/
def rootInputs : Nat → List δ → List ι
  | 0, _ => []
  | fuel + 1, level =>
      if 1 < level.length then
        levelInputs pair level ++ rootInputs fuel (nextLevel (nodeHash hash pair) level)
      else []

/-- The digests of a tree whose inputs are all within a set. -/
inductive InTree (seen : Set ι) (leaves : List ι) : δ → Prop
  | leaf (x : ι) : x ∈ leaves → InTree seen leaves (hash x)
  | pair (a b : δ) : InTree seen leaves a → InTree seen leaves b → pair a b ∈ seen →
      InTree seen leaves (nodeHash hash pair a b)

variable {hash pair} {seen : Set ι} {leaves : List ι}

theorem inTree_nextLevel : ∀ level : List δ, (∀ d ∈ level, InTree hash pair seen leaves d) →
    (∀ x ∈ levelInputs pair level, x ∈ seen) →
    ∀ d ∈ nextLevel (nodeHash hash pair) level, InTree hash pair seen leaves d
  | [], _, _, d, hd => absurd hd List.not_mem_nil
  | [a], h, _, d, hd => h d (by simpa using hd)
  | a :: b :: rest, h, hseen, d, hd => by
      rw [levelInputs] at hseen
      obtain ⟨hpair, hrest⟩ := List.forall_mem_cons.mp hseen
      obtain ⟨ha, h⟩ := List.forall_mem_cons.mp h
      obtain ⟨hb, h⟩ := List.forall_mem_cons.mp h
      rcases List.mem_cons.mp hd with rfl | hd
      · exact .pair a b ha hb hpair
      · exact inTree_nextLevel rest h hrest d hd

theorem inTree_rootLoop {fuel : Nat} {level : List δ} {r : δ}
    (hroot : rootLoop (nodeHash hash pair) fuel level = some r)
    (h : ∀ d ∈ level, InTree hash pair seen leaves d)
    (hseen : ∀ x ∈ rootInputs hash pair fuel level, x ∈ seen) :
    InTree hash pair seen leaves r := by
  induction fuel generalizing level with
  | zero => exact h r (List.mem_of_mem_head? hroot)
  | succ fuel ih =>
      rw [rootLoop] at hroot
      rw [rootInputs] at hseen
      split at hroot
      · next hlen =>
          rw [if_pos hlen] at hseen
          obtain ⟨hlevel, hrest⟩ := List.forall_mem_append.mp hseen
          exact ih hroot (inTree_nextLevel level h hlevel) hrest
      · exact h r (List.mem_of_mem_head? hroot)

variable (hfree : Set.InjOn hash seen) (hpair : PairInput pair)
include hfree hpair

/-- Nothing walks into the tree from outside, as long as no leaf is the input of a pair. -/
theorem inTree_of_walk (hleaves : ∀ x ∈ leaves, x ∈ seen ∧ ∀ a b, x ≠ pair a b) {h : δ}
    {steps : List δ} (hwalk : ∀ x ∈ walkInputs hash pair h steps, x ∈ seen)
    (hin : InTree hash pair seen leaves (walk (nodeHash hash pair) h steps)) :
    InTree hash pair seen leaves h := by
  induction steps generalizing h with
  | nil => exact hin
  | cons s steps ih =>
      rw [walkInputs] at hwalk
      obtain ⟨hseen, hrest⟩ := List.forall_mem_cons.mp hwalk
      have hup : InTree hash pair seen leaves (hash (pair h s)) := ih hrest hin
      generalize hd : hash (pair h s) = d at hup
      cases hup with
      | leaf x hx =>
          have hx' := hleaves x hx
          exact absurd (hfree hseen hx'.1 hd).symm (hx'.2 h s)
      | pair a b ha hb hab =>
          rcases hpair.inj _ _ _ _ (hfree hseen hab hd) with ⟨rfl, -⟩ | ⟨rfl, -⟩
          · exact ha
          · exact hb

/-- What walks to the root is a leaf. -/
theorem mem_leaves_of_walk (hleaves : ∀ x ∈ leaves, x ∈ seen ∧ ∀ a b, x ≠ pair a b) {x : ι}
    (hx : x ∈ seen) (hleaf : ∀ a b, x ≠ pair a b) {steps : List δ}
    (hwalk : ∀ y ∈ walkInputs hash pair (hash x) steps, y ∈ seen) {r : δ}
    (hr : InTree hash pair seen leaves r) (h : walk (nodeHash hash pair) (hash x) steps = r) :
    x ∈ leaves := by
  have hin := inTree_of_walk hfree hpair hleaves hwalk (h ▸ hr)
  generalize hd : hash x = d at hin
  cases hin with
  | leaf y hy => exact hfree hx (hleaves y hy).1 hd ▸ hy
  | pair a b _ _ hab => exact absurd (hfree hx hab hd) (hleaf a b)

/-- Two digests with one proof and one end are the same. -/
theorem walk_injective {h h' : δ} {steps : List δ}
    (hwalk : ∀ x ∈ walkInputs hash pair h steps, x ∈ seen)
    (hwalk' : ∀ x ∈ walkInputs hash pair h' steps, x ∈ seen)
    (heq : walk (nodeHash hash pair) h steps = walk (nodeHash hash pair) h' steps) : h = h' := by
  induction steps generalizing h h' with
  | nil => exact heq
  | cons s steps ih =>
      rw [walkInputs] at hwalk hwalk'
      obtain ⟨hseen, hrest⟩ := List.forall_mem_cons.mp hwalk
      obtain ⟨hseen', hrest'⟩ := List.forall_mem_cons.mp hwalk'
      have hup : hash (pair h s) = hash (pair h' s) := ih hrest hrest' heq
      rcases hpair.inj _ _ _ _ (hfree hseen hseen' hup) with ⟨h, -⟩ | ⟨h, h'⟩
      · exact h
      · exact h.trans h'

end Sound

end PairedMerkle
