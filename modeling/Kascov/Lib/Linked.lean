import Mathlib.Data.List.Chain

/-!
# Linked chains

Chains whose elements link to at most one predecessor.  What lies below an
element is then the same on every chain that contains it, so a walk that is
interrupted and resumed on another chain has still visited all of it.
-/

universe u

namespace Linked

variable {α : Type u} {Link : α → α → Prop}

/-- An element lies on the chain that ends in another. -/
inductive Below (Link : α → α → Prop) (a : α) : α → Prop where
  | refl : Below Link a a
  | step {x y : α} (below : Below Link a x) (link : Link x y) : Below Link a y

/-- Links lead up: no element has two predecessors. -/
def OnePredecessor (Link : α → α → Prop) : Prop :=
  ∀ x x' y, Link x y → Link x' y → x = x'

theorem Below.trans {a b c : α} (hab : Below Link a b) (hbc : Below Link b c) :
    Below Link a c := by
  induction hbc with
  | refl => exact hab
  | step _ link ih => exact ih.step link

/-- What lies below an element is that element, or lies below its predecessor. -/
theorem Below.of_link (h : OnePredecessor Link) {a x y : α} (link : Link x y)
    (below : Below Link a y) : a = y ∨ Below Link a x := by
  cases below with
  | refl => exact .inl rfl
  | step below link' =>
      rw [h _ _ _ link link']
      exact .inr below

/-- A relation that every link respects, all of the chain respects. -/
theorem Below.rel {R : α → α → Prop} (refl : ∀ a, R a a)
    (trans : ∀ {a b c}, R a b → R b c → R a c) (link : ∀ {x y}, Link x y → R x y) {a b : α}
    (h : Below Link a b) : R a b := by
  induction h with
  | refl => exact refl a
  | step _ hlink ih => exact trans ih (link hlink)

/-- The elements of a chain lie above its head. -/
theorem below_of_mem {c : α} {chain : List α} (h : (c :: chain).IsChain Link) {x : α}
    (hx : x ∈ chain) : Below Link c x := by
  induction chain generalizing c with
  | nil => cases hx
  | cons y rest ih =>
      obtain ⟨link, hrest⟩ := List.isChain_cons_cons.mp h
      rcases List.mem_cons.mp hx with rfl | hx
      · exact .step .refl link
      · exact (Below.step .refl link).trans (ih hrest hx)

/-- An element of a chain lies below those after it. -/
theorem below_of_append {pre post : List α} {c : α} (h : (pre ++ c :: post).IsChain Link) {x : α}
    (hx : x ∈ pre) : Below Link x c := by
  obtain ⟨front, back, rfl⟩ := List.append_of_mem hx
  rw [List.append_assoc, List.cons_append] at h
  exact below_of_mem (h.right_of_append) (List.mem_append.mpr (.inr List.mem_cons_self))

/-- The elements of a chain lie below its end. -/
theorem below_getLastD {c : α} {chain : List α} (h : (c :: chain).IsChain Link) {x : α}
    (hx : x ∈ c :: chain) : Below Link x (chain.getLastD c) := by
  induction chain generalizing c x with
  | nil =>
      obtain rfl := List.mem_singleton.mp hx
      exact .refl
  | cons y rest ih =>
      obtain ⟨link, hrest⟩ := List.isChain_cons_cons.mp h
      rw [List.getLastD_cons]
      rcases List.mem_cons.mp hx with rfl | hx
      · exact (Below.step .refl link).trans (ih hrest List.mem_cons_self)
      · exact ih hrest hx

/-- A walk has visited everything below its position. -/
def Visited (Link : α → α → Prop) (P : α → Prop) (c : α) : Prop :=
  ∀ b, Below Link b c → P b

theorem Visited.next {P : α → Prop} {c y : α} (h : OnePredecessor Link) (hc : Visited Link P c)
    (link : Link c y) (hy : P y) : Visited Link P y := by
  intro b hb
  rcases hb.of_link h link with rfl | hb
  · exact hy
  · exact hc b hb

/-- A walk that ends where the rest of the chain need not be visited has visited
the chain. -/
theorem Visited.chain {P : α → Prop} {pre post : List α} {c : α} (hc : Visited Link P c)
    (h : (pre ++ c :: post).IsChain Link) (hpost : ∀ b ∈ post, P b) :
    ∀ b ∈ pre ++ c :: post, P b := by
  intro b hb
  rcases List.mem_append.mp hb with hb | hb
  · exact hc b (below_of_append h hb)
  · rcases List.mem_cons.mp hb with rfl | hb
    · exact hc b .refl
    · exact hpost b hb

/-- A walk along a chain visits what it passes. -/
theorem Visited.walk {P : α → Prop} (h : OnePredecessor Link) {c : α} {passed : List α}
    (hc : Visited Link P c) (hchain : (c :: passed).IsChain Link) (hpassed : ∀ b ∈ passed, P b) :
    Visited Link P (passed.getLastD c) := by
  induction passed generalizing c with
  | nil => exact hc
  | cons y rest ih =>
      obtain ⟨link, hrest⟩ := List.isChain_cons_cons.mp hchain
      obtain ⟨hy, hpassed⟩ := List.forall_mem_cons.mp hpassed
      rw [List.getLastD_cons]
      exact ih (hc.next h link hy) hrest hpassed

theorem Visited.mono {P Q : α → Prop} {c : α} (hc : Visited Link P c) (h : ∀ b, P b → Q b) :
    Visited Link Q c :=
  fun b hb ↦ h b (hc b hb)

end Linked
