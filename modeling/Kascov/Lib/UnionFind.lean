import Kascov.Lib.InsertionMap
import Mathlib.Data.List.Perm.Subperm
import Mathlib.Logic.Function.Basic
import Mathlib.Logic.Relation

/-!
# Union and find

A map of pointers, whose roots point at themselves.  A search for the root of an element
points all it passes at the root, and two roots are linked by pointing one at the other.  The
elements that have one root are then those that the pairs linked so far connect.
-/

universe u

namespace UnionFind

open Relation

variable {α : Type u}

/-! ## Pointers -/

section Pointers

/-- The pointers lead from an element to a root, in so many steps. -/
inductive Leads (up : α → α) : Nat → α → α → Prop where
  | root {r} (h : up r = r) : Leads up 0 r r
  | step {n x r} (h : up x ≠ x) (rest : Leads up n (up x) r) : Leads up (n + 1) x r

/-- `r` is the root of `x`. -/
def RootOf (up : α → α) (x r : α) : Prop := ∃ n, Leads up n x r

/-- The pointers lead from everywhere to a root. -/
def Rooted (up : α → α) : Prop := ∀ x, ∃ r, RootOf up x r

/-- Two elements have one root. -/
def Together (up : α → α) (x y : α) : Prop := ∃ r, RootOf up x r ∧ RootOf up y r

variable {up : α → α} {n n' : Nat} {x y r r' s : α}

theorem Leads.isRoot (h : Leads up n x r) : up r = r := by
  induction h with
  | root h => exact h
  | step _ _ ih => exact ih

theorem RootOf.isRoot (h : RootOf up x r) : up r = r := h.elim fun _ h ↦ h.isRoot

theorem Leads.unique (h : Leads up n x r) (h' : Leads up n' x r') : n = n' ∧ r = r' := by
  induction h generalizing n' with
  | root h =>
      cases h' with
      | root _ => exact ⟨rfl, rfl⟩
      | step hne _ => exact absurd h hne
  | step hne _ ih =>
      cases h' with
      | root h => exact absurd h hne
      | step _ rest =>
          obtain ⟨hn, hr⟩ := ih rest
          exact ⟨congrArg (· + 1) hn, hr⟩

theorem RootOf.unique (h : RootOf up x r) (h' : RootOf up x r') : r = r' := by
  obtain ⟨n, h⟩ := h
  obtain ⟨n', h'⟩ := h'
  exact (h.unique h').2

theorem rootOf_self (h : up r = r) : RootOf up r r := ⟨0, .root h⟩

theorem rootOf_self_iff (h : up x = x) : RootOf up x r ↔ r = x := by
  constructor
  · exact fun hr ↦ hr.unique (rootOf_self h)
  · rintro rfl
    exact rootOf_self h

theorem RootOf.step (hne : up x ≠ x) (h : RootOf up (up x) r) : RootOf up x r := by
  obtain ⟨n, h⟩ := h
  exact ⟨n + 1, .step hne h⟩

theorem rootOf_step_iff (hne : up x ≠ x) : RootOf up x r ↔ RootOf up (up x) r := by
  constructor
  · rintro ⟨n, h⟩
    cases h with
    | root h => exact absurd h hne
    | step _ rest => exact ⟨_, rest⟩
  · exact RootOf.step hne

/-- An induction over the way to the root. -/
theorem RootOf.induct {motive : α → Prop} (h : RootOf up x r) (root : up r = r → motive r)
    (step : ∀ y, up y ≠ y → RootOf up (up y) r → motive (up y) → motive y) : motive x := by
  obtain ⟨n, h⟩ := h
  induction h with
  | root h => exact root h
  | step hne rest ih => exact step _ hne ⟨_, rest⟩ (ih root step)

theorem Rooted.together (h : Rooted up) : Equivalence (Together up) where
  refl x := by
    obtain ⟨r, hr⟩ := h x
    exact ⟨r, hr, hr⟩
  symm := fun ⟨r, hx, hy⟩ ↦ ⟨r, hy, hx⟩
  trans := by
    rintro x y z ⟨r, hx, hy⟩ ⟨s, hy', hz⟩
    obtain rfl := hy.unique hy'
    exact ⟨r, hx, hz⟩

theorem together_comm : Together up x y ↔ Together up y x :=
  ⟨fun ⟨r, hx, hy⟩ ↦ ⟨r, hy, hx⟩, fun ⟨r, hy, hx⟩ ↦ ⟨r, hx, hy⟩⟩

theorem RootOf.together_iff (h : RootOf up y r) : Together up x y ↔ RootOf up x r := by
  constructor
  · rintro ⟨s, hx, hy⟩
    obtain rfl := hy.unique h
    exact hx
  · exact fun hx ↦ ⟨r, hx, h⟩

variable [DecidableEq α]

/-- **Compression.**  An element may be pointed at its root. -/
theorem rootOf_compress (hx : RootOf up x r) :
    RootOf (Function.update up x r) y s ↔ RootOf up y s := by
  have hforth : ∀ {y s}, RootOf up y s → RootOf (Function.update up x r) y s := by
    intro y s h
    refine h.induct (motive := (RootOf (Function.update up x r) · s)) (fun hroot ↦ ?_)
      fun z hne hz ih ↦ ?_
    · by_cases hsx : s = x
      · subst hsx
        obtain rfl := hx.unique (rootOf_self hroot)
        exact rootOf_self (Function.update_self ..)
      · exact rootOf_self ((Function.update_of_ne hsx ..).trans hroot)
    · by_cases hzx : z = x
      · subst hzx
        obtain rfl := hx.unique (.step hne hz)
        -- the pointer goes straight to the root, which keeps its own
        have hrz : r ≠ z := fun heq ↦ hne (heq ▸ hx.isRoot)
        have hself : Function.update up z r r = r :=
          (Function.update_of_ne hrz ..).trans hx.isRoot
        have hup : Function.update up z r z = r := Function.update_self ..
        refine .step (by rw [hup]; exact hrz) ?_
        rw [hup]
        exact rootOf_self hself
      · have hup : Function.update up x r z = up z := Function.update_of_ne hzx ..
        refine .step (by rw [hup]; exact hne) ?_
        rw [hup]
        exact ih
  constructor
  · intro h
    refine h.induct (motive := (RootOf up · s)) (fun hroot ↦ ?_) fun z hne _ ih ↦ ?_
    · by_cases hsx : s = x
      · subst hsx
        rw [Function.update_self] at hroot
        rw [← hroot]
        exact rootOf_self hx.isRoot
      · rw [Function.update_of_ne hsx] at hroot
        exact rootOf_self hroot
    · by_cases hzx : z = x
      · subst hzx
        rw [Function.update_self] at ih
        obtain rfl := (rootOf_self_iff hx.isRoot).mp ih
        exact hx
      · rw [Function.update_of_ne hzx] at hne ih
        exact .step hne ih
  · exact hforth

/-- **A link.**  What had the one root has the other now. -/
theorem rootOf_link {a b : α} (ha : up a = a) (hb : up b = b) (hne : a ≠ b) :
    RootOf (Function.update up a b) y s ↔
      RootOf up y a ∧ s = b ∨ RootOf up y s ∧ s ≠ a := by
  have hbself : Function.update up a b b = b :=
    (Function.update_of_ne hne.symm ..).trans hb
  have haup : Function.update up a b a = b := Function.update_self ..
  have hforth : ∀ {y s}, RootOf up y s →
      RootOf (Function.update up a b) y (if s = a then b else s) := by
    intro y s h
    refine h.induct (motive := (RootOf (Function.update up a b) · (if s = a then b else s)))
      (fun hroot ↦ ?_) fun z hz _ ih ↦ ?_
    · by_cases hsa : s = a
      · rw [if_pos hsa, hsa]
        refine .step (by rw [haup]; exact hne.symm) ?_
        rw [haup]
        exact rootOf_self hbself
      · rw [if_neg hsa]
        exact rootOf_self ((Function.update_of_ne hsa ..).trans hroot)
    · have hza : z ≠ a := fun heq ↦ hz (heq ▸ ha)
      have hup : Function.update up a b z = up z := Function.update_of_ne hza ..
      refine .step (by rw [hup]; exact hz) ?_
      rw [hup]
      exact ih
  constructor
  · intro h
    refine h.induct (motive := fun y ↦ RootOf up y a ∧ s = b ∨ RootOf up y s ∧ s ≠ a)
      (fun hroot ↦ ?_) fun z hz _ ih ↦ ?_
    · by_cases hsa : s = a
      · subst hsa
        rw [haup] at hroot
        exact absurd hroot.symm hne
      · rw [Function.update_of_ne hsa] at hroot
        exact .inr ⟨rootOf_self hroot, hsa⟩
    · by_cases hza : z = a
      · subst hza
        rw [haup, rootOf_self_iff hb, rootOf_self_iff hb] at ih
        refine .inl ⟨rootOf_self ha, ?_⟩
        exact ih.elim (fun h ↦ h.2) fun h ↦ h.1
      · rw [Function.update_of_ne hza] at hz ih
        rw [rootOf_step_iff hz, rootOf_step_iff hz]
        exact ih
  · rintro (⟨hy, rfl⟩ | ⟨hy, hsa⟩)
    · have h := hforth hy
      rwa [if_pos rfl] at h
    · have h := hforth hy
      rwa [if_neg hsa] at h

/-- What is connected once `a` and `b` are. -/
def Joins (r : α → α → Prop) (a b x y : α) : Prop :=
  r x y ∨ r x a ∧ r b y ∨ r x b ∧ r a y

theorem together_link {a b ra rb : α} (hrooted : Rooted up) (ha : RootOf up a ra)
    (hb : RootOf up b rb) (hne : ra ≠ rb) :
    Rooted (Function.update up ra rb) ∧
      ∀ x y, Together (Function.update up ra rb) x y ↔ Joins (Together up) a b x y := by
  have hlink : ∀ {y s}, RootOf (Function.update up ra rb) y s ↔
      RootOf up y ra ∧ s = rb ∨ RootOf up y s ∧ s ≠ ra := rootOf_link ha.isRoot hb.isRoot hne
  refine ⟨fun x ↦ ?_, fun x y ↦ ?_⟩
  · obtain ⟨r, hr⟩ := hrooted x
    by_cases hra : r = ra
    · exact ⟨rb, hlink.mpr (.inl ⟨hra ▸ hr, rfl⟩)⟩
    · exact ⟨r, hlink.mpr (.inr ⟨hr, hra⟩)⟩
  · unfold Joins
    rw [ha.together_iff, hb.together_iff, together_comm (x := b), together_comm (x := a),
      ha.together_iff, hb.together_iff]
    constructor
    · rintro ⟨s, hx, hy⟩
      rw [hlink] at hx hy
      rcases hx with ⟨hx, rfl⟩ | ⟨hx, hs⟩
      · rcases hy with ⟨hy, -⟩ | ⟨hy, -⟩
        · exact .inl ⟨ra, hx, hy⟩
        · exact .inr (.inl ⟨hx, hy⟩)
      · rcases hy with ⟨hy, rfl⟩ | ⟨hy, -⟩
        · exact .inr (.inr ⟨hx, hy⟩)
        · exact .inl ⟨s, hx, hy⟩
    · rintro (⟨s, hx, hy⟩ | ⟨hx, hy⟩ | ⟨hx, hy⟩)
      · by_cases hs : s = ra
        · subst hs
          exact ⟨rb, hlink.mpr (.inl ⟨hx, rfl⟩), hlink.mpr (.inl ⟨hy, rfl⟩)⟩
        · exact ⟨s, hlink.mpr (.inr ⟨hx, hs⟩), hlink.mpr (.inr ⟨hy, hs⟩)⟩
      · exact ⟨rb, hlink.mpr (.inl ⟨hx, rfl⟩), hlink.mpr (.inr ⟨hy, hne.symm⟩)⟩
      · exact ⟨rb, hlink.mpr (.inr ⟨hx, hne.symm⟩), hlink.mpr (.inl ⟨hy, rfl⟩)⟩

end Pointers

/-! ## What pairs connect -/

section Connected

variable {r : α → α → Prop} {a b x y : α}

theorem Joins.equivalence (h : Equivalence r) (a b : α) : Equivalence (Joins r a b) where
  refl x := .inl (h.refl x)
  symm := by
    rintro x y (hxy | ⟨hx, hy⟩ | ⟨hx, hy⟩)
    · exact .inl (h.symm hxy)
    · exact .inr (.inr ⟨h.symm hy, h.symm hx⟩)
    · exact .inr (.inl ⟨h.symm hy, h.symm hx⟩)
  trans := by
    rintro x y z (hxy | ⟨hx, hy⟩ | ⟨hx, hy⟩) (hyz | ⟨hy', hz⟩ | ⟨hy', hz⟩)
    · exact .inl (h.trans hxy hyz)
    · exact .inr (.inl ⟨h.trans hxy hy', hz⟩)
    · exact .inr (.inr ⟨h.trans hxy hy', hz⟩)
    · exact .inr (.inl ⟨hx, h.trans hy hyz⟩)
    · exact .inr (.inl ⟨hx, hz⟩)
    · exact .inl (h.trans hx hz)
    · exact .inr (.inr ⟨hx, h.trans hy hyz⟩)
    · exact .inl (h.trans hx hz)
    · exact .inr (.inr ⟨hx, hz⟩)

/-- The pairs of a list. -/
def Listed (pairs : List (α × α)) (x y : α) : Prop := (x, y) ∈ pairs

/-- **One more pair.** -/
theorem eqvGen_concat (pairs : List (α × α)) (a b : α) :
    EqvGen (Listed (pairs ++ [(a, b)])) x y ↔ Joins (EqvGen (Listed pairs)) a b x y := by
  have hequiv := EqvGen.is_equivalence (Listed pairs)
  have hmono : EqvGen (Listed pairs) ≤ EqvGen (Listed (pairs ++ [(a, b)])) :=
    EqvGen.mono fun _ _ hmem ↦ List.mem_append_left _ hmem
  have hpair : EqvGen (Listed (pairs ++ [(a, b)])) a b :=
    .rel _ _ (List.mem_append_right _ (List.mem_singleton_self _))
  constructor
  · intro h
    have hjoins := Joins.equivalence hequiv a b
    induction h with
    | rel x y hmem =>
        rcases List.mem_append.mp hmem with hmem | hmem
        · exact .inl (.rel _ _ hmem)
        · obtain ⟨rfl, rfl⟩ := Prod.mk.inj (List.mem_singleton.mp hmem)
          exact .inr (.inl ⟨.refl _, .refl _⟩)
    | refl x => exact hjoins.refl x
    | symm x y _ ih => exact hjoins.symm ih
    | trans x y z _ _ ihxy ihyz => exact hjoins.trans ihxy ihyz
  · rintro (h | ⟨hx, hy⟩ | ⟨hx, hy⟩)
    · exact hmono _ _ h
    · exact .trans _ _ _ (hmono _ _ hx) (.trans _ _ _ hpair (hmono _ _ hy))
    · exact .trans _ _ _ (hmono _ _ hx) (.trans _ _ _ (.symm _ _ hpair) (hmono _ _ hy))

end Connected

/-! ## Maps of pointers -/

section Maps

variable [DecidableEq α]

/-- The pointer of an element; one that the map does not have points at itself. -/
def up (m : InsertionMap α α) (x : α) : α := (m.get? x).getD x

/-- The root of an element, and the map with all that was passed pointed at it.  `fuel` bounds
the steps. -/
def find : Nat → InsertionMap α α → α → Option (InsertionMap α α × α)
  | 0, _, _ => none
  | fuel + 1, m, x =>
      if up m x = x then some (m, x)
      else (find fuel m (up m x)).map fun found ↦ (found.1.set x found.2, found.2)

/-- The roots of two elements are linked. -/
def union (m : InsertionMap α α) (a b : α) : Option (InsertionMap α α) := do
  let (m, ra) ← find (m.size + 1) m a
  let (m, rb) ← find (m.size + 1) m b
  return if ra ≠ rb then m.set ra rb else m

/-- The keys of a map. -/
def keys {ν : Type u} (m : InsertionMap α ν) : List α := m.entries.map Prod.fst

variable {m m' : InsertionMap α α} {x y r : α}

theorem up_set (m : InsertionMap α α) (k v : α) :
    up (m.set k v) = Function.update (up m) k v := by
  funext x
  by_cases hx : x = k
  · rw [hx, Function.update_self, up, InsertionMap.get?_set_self]
    rfl
  · rw [Function.update_of_ne hx, up, InsertionMap.get?_set_ne hx]
    rfl

theorem mem_keys_of_up_ne (h : up m x ≠ x) : x ∈ keys m := by
  by_contra hnot
  refine h ?_
  rw [up, InsertionMap.get?_eq_none_iff.mpr hnot]
  rfl

theorem keys_set_of_mem {ν : Type u} {m : InsertionMap α ν} {k : α} {v : ν} (h : k ∈ keys m) :
    keys (m.set k v) = keys m := by
  have hset : (m.set k v).entries = m.entries.map fun e ↦ if e.1 = k then (k, v) else e :=
    if_pos h
  rw [keys, hset, List.map_map]
  refine List.map_congr_left fun e _ ↦ ?_
  rw [Function.comp_apply]
  split
  · exact Eq.symm ‹_›
  · rfl

/-- The map has the keys and the roots of another one. -/
structure Alike (m m' : InsertionMap α α) : Prop where
  keys : keys m' = keys m
  roots : ∀ y s, RootOf (up m') y s ↔ RootOf (up m) y s

theorem Alike.refl (m : InsertionMap α α) : Alike m m := ⟨rfl, fun _ _ ↦ Iff.rfl⟩

theorem Alike.trans {m'' : InsertionMap α α} (h : Alike m m') (h' : Alike m' m'') : Alike m m'' :=
  ⟨h'.keys.trans h.keys, fun y s ↦ (h'.roots y s).trans (h.roots y s)⟩

theorem Alike.size (h : Alike m m') : m'.size = m.size := by
  have hlength := congrArg List.length h.keys
  rwa [UnionFind.keys, UnionFind.keys, List.length_map, List.length_map] at hlength

/-- A search that does not run out ends at the root. -/
theorem find_of_leads {n fuel : Nat} (h : Leads (up m) n x r) (hn : n < fuel) :
    ∃ m', find fuel m x = some (m', r) ∧ Alike m m' := by
  induction h generalizing fuel with
  | @root r hroot =>
      obtain ⟨fuel, rfl⟩ : ∃ k, fuel = k + 1 := ⟨fuel - 1, by omega⟩
      exact ⟨m, if_pos hroot, .refl m⟩
  | @step n x r hne rest ih =>
      obtain ⟨fuel, rfl⟩ : ∃ k, fuel = k + 1 := ⟨fuel - 1, by omega⟩
      obtain ⟨m', hfound, halike⟩ := ih (Nat.lt_of_succ_lt_succ hn)
      refine ⟨m'.set x r, ?_, halike.trans ⟨?_, fun y s ↦ ?_⟩⟩
      · rw [find, if_neg hne, hfound]
        rfl
      · exact keys_set_of_mem (halike.keys ▸ mem_keys_of_up_ne hne)
      · rw [up_set]
        exact rootOf_compress ((halike.roots x r).mpr ⟨n + 1, .step hne rest⟩)

/-- The elements on the way to a root, each of which has a pointer. -/
theorem Leads.way {n : Nat} (h : Leads (up m) n x r) :
    ∃ way : List α, way.length = n ∧ way.Nodup ∧ ∀ y ∈ way, up m y ≠ y ∧
      ∃ k, k ≤ n ∧ 0 < k ∧ Leads (up m) k y r := by
  induction h with
  | root _ => exact ⟨[], rfl, List.nodup_nil, List.forall_mem_nil _⟩
  | @step n x r hne rest ih =>
      obtain ⟨way, hlength, hnodup, hway⟩ := ih
      refine ⟨x :: way, congrArg (· + 1) hlength, List.nodup_cons.mpr ⟨fun hx ↦ ?_, hnodup⟩,
        fun y hy ↦ ?_⟩
      · -- an element is as far from its root wherever it is met
        obtain ⟨-, k, hk, -, hleads⟩ := hway x hx
        have heq := (hleads.unique (.step hne rest)).1
        omega
      · rcases List.mem_cons.mp hy with rfl | hy
        · exact ⟨hne, n + 1, Nat.le_refl _, Nat.succ_pos n, .step hne rest⟩
        · obtain ⟨hy, k, hk, hpos, hleads⟩ := hway y hy
          exact ⟨hy, k, Nat.le_succ_of_le hk, hpos, hleads⟩

theorem Leads.le_size {n : Nat} (h : Leads (up m) n x r) : n ≤ m.size := by
  obtain ⟨way, rfl, hnodup, hway⟩ := h.way
  have hsub : way ⊆ keys m := fun y hy ↦ mem_keys_of_up_ne (hway y hy).1
  have hle := (hnodup.subperm hsub).length_le
  rwa [keys, List.length_map] at hle

/-- **A search returns the root**, and leaves the classes as they are. -/
theorem find_spec (h : RootOf (up m) x r) :
    ∃ m', find (m.size + 1) m x = some (m', r) ∧ Alike m m' := by
  obtain ⟨n, h⟩ := h
  exact find_of_leads h (Nat.lt_succ_of_le h.le_size)

/-- Every key leads to a root, which is a key. -/
structure Forest (m : InsertionMap α α) : Prop where
  rooted : Rooted (up m)
  closed : ∀ x ∈ keys m, ∀ r, RootOf (up m) x r → r ∈ keys m

theorem Forest.alike (h : Forest m) (halike : Alike m m') : Forest m' where
  rooted x := (h.rooted x).imp fun r hr ↦ (halike.roots x r).mpr hr
  closed x hx r hr := by
    rw [halike.keys] at hx ⊢
    exact h.closed x hx r ((halike.roots x r).mp hr)

theorem Alike.together (h : Alike m m') (x y : α) :
    Together (up m') x y ↔ Together (up m) x y :=
  exists_congr fun r ↦ and_congr (h.roots x r) (h.roots y r)

/-- **A union connects two keys**, and what is connected with them. -/
theorem union_spec (h : Forest m) {a b : α} (ha : a ∈ keys m) (hb : b ∈ keys m) :
    ∃ m', union m a b = some m' ∧ keys m' = keys m ∧ Forest m' ∧
      ∀ x y, Together (up m') x y ↔ Joins (Together (up m)) a b x y := by
  obtain ⟨ra, hra⟩ := h.rooted a
  obtain ⟨rb, hrb⟩ := h.rooted b
  obtain ⟨m₁, hfind₁, halike₁⟩ := find_spec hra
  obtain ⟨m₂, hfind₂, halike₂⟩ := find_spec ((halike₁.roots b rb).mpr hrb)
  have halike := halike₁.trans halike₂
  have hforest := h.alike halike
  have hunion : union m a b = some (if ra ≠ rb then m₂.set ra rb else m₂) := by
    rw [union, hfind₁]
    dsimp only [Option.bind_eq_bind, Option.bind_some]
    rw [hfind₂]
    rfl
  refine ⟨_, hunion, ?_⟩
  by_cases hne : ra ≠ rb
  · rw [if_pos hne]
    obtain ⟨hlinked, hjoins⟩ := together_link hforest.rooted ((halike.roots a ra).mpr hra)
      ((halike.roots b rb).mpr hrb) hne
    have hkeys : keys (m₂.set ra rb) = keys m₂ :=
      keys_set_of_mem (halike.keys ▸ h.closed a ha ra hra)
    refine ⟨hkeys.trans halike.keys, ⟨?_, fun x hx r hr ↦ ?_⟩, fun x y ↦ ?_⟩
    · rw [up_set]
      exact hlinked
    · rw [hkeys] at hx ⊢
      rw [up_set, rootOf_link ((halike.roots a ra).mpr hra).isRoot
        ((halike.roots b rb).mpr hrb).isRoot hne] at hr
      rcases hr with ⟨-, rfl⟩ | ⟨hr, -⟩
      · exact halike.keys ▸ h.closed b hb r hrb
      · exact hforest.closed x hx r hr
    · rw [up_set, hjoins]
      simp only [Joins, halike.together]
  · rw [if_neg hne]
    refine ⟨halike.keys, hforest, fun x y ↦ (halike.together x y).trans ?_⟩
    -- the two were connected before
    have hab : Together (up m) a b := ⟨ra, hra, not_not.mp hne ▸ hrb⟩
    have hequiv := h.rooted.together
    constructor
    · exact .inl
    · rintro (h | ⟨hx, hy⟩ | ⟨hx, hy⟩)
      · exact h
      · exact hequiv.trans hx (hequiv.trans hab hy)
      · exact hequiv.trans hx (hequiv.trans (hequiv.symm hab) hy)

/-- What shares its root with something else is a key. -/
theorem Forest.mem_keys (h : Forest m) {x y r : α} (hne : x ≠ y) (hx : RootOf (up m) x r)
    (hy : RootOf (up m) y r) : x ∈ keys m := by
  by_cases hself : up m x = x
  · obtain rfl := (rootOf_self_iff hself).mp hx
    have hpoints : up m y ≠ y := fun heq ↦ hne ((rootOf_self_iff heq).mp hy)
    exact h.closed y (mem_keys_of_up_ne hpoints) r hy
  · exact mem_keys_of_up_ne hself

/-- A new key is its own root. -/
theorem Forest.insert (h : Forest m) {k : α} (hk : k ∉ keys m) :
    Forest (m.set k k) ∧ keys (m.set k k) = keys m ++ [k] ∧
      ∀ x y, Together (up (m.set k k)) x y ↔ Together (up m) x y := by
  have hself : up m k = k := by
    by_contra hne
    exact hk (mem_keys_of_up_ne hne)
  have hup : up (m.set k k) = up m := by
    rw [up_set]
    exact Function.update_eq_self_iff.mpr hself.symm
  have hkeys : keys (m.set k k) = keys m ++ [k] := by
    rw [keys, InsertionMap.entries_set_of_none (InsertionMap.get?_eq_none_iff.mpr hk),
      List.map_append]
    rfl
  refine ⟨⟨hup ▸ h.rooted, fun x hx r hr ↦ ?_⟩, hkeys, fun x y ↦ by rw [hup]⟩
  rw [hup] at hr
  rw [hkeys] at hx ⊢
  rcases List.mem_append.mp hx with hx | hx
  · exact List.mem_append_left _ (h.closed x hx r hr)
  · rw [List.mem_singleton.mp hx, rootOf_self_iff hself] at hr
    exact List.mem_append_right _ (hr ▸ List.mem_singleton_self _)

theorem forest_empty : Forest ({} : InsertionMap α α) where
  rooted x := ⟨x, rootOf_self rfl⟩
  closed _ hx := absurd hx List.not_mem_nil

end Maps

/-! ## Classes -/

section Classes

variable [DecidableEq α]

/-- An element put to the others of its root. -/
def gatherStep (acc : InsertionMap α α × InsertionMap α (List α)) (x : α) :
    Option (InsertionMap α α × InsertionMap α (List α)) := do
  let (m, root) ← find (acc.1.size + 1) acc.1 x
  return (m, acc.2.set root ((acc.2.get? root).getD [] ++ [x]))

/-- The elements by their roots. -/
def gather (m : InsertionMap α α) (members : List α) : Option (InsertionMap α (List α)) :=
  (members.foldlM gatherStep (m, {})).map Prod.snd

/-- The elements seen so far are put to their roots, each once. -/
structure Gathered (m : InsertionMap α α) (seen : List α) (c : InsertionMap α (List α)) :
    Prop where
  nonempty : ∀ r, c.get? r ≠ some []
  nodup : ∀ r, ((c.get? r).getD []).Nodup
  mem : ∀ r x, x ∈ (c.get? r).getD [] ↔ x ∈ seen ∧ RootOf (up m) x r

variable {m : InsertionMap α α} {seen members : List α} {x : α}

theorem Gathered.of_entry {c : InsertionMap α (List α)} (h : Gathered m seen c) {r : α}
    {xs : List α} (hentry : (r, xs) ∈ c.entries) :
    xs.Nodup ∧ ∀ x, x ∈ xs ↔ x ∈ seen ∧ RootOf (up m) x r := by
  have hnodup := h.nodup r
  have hmem := h.mem r
  rw [InsertionMap.get?_eq_some_iff.mpr hentry] at hnodup hmem
  exact ⟨hnodup, hmem⟩

/-- The classes do not meet. -/
theorem Gathered.disjoint {c : InsertionMap α (List α)} (h : Gathered m seen c) :
    (c.entries.map Prod.snd).Pairwise List.Disjoint := by
  refine List.pairwise_map.mpr ((List.pairwise_map.mp c.distinct).imp_of_mem ?_)
  intro e e' he he' hne x hx hx'
  exact hne ((((h.of_entry he).2 x).mp hx).2.unique (((h.of_entry he').2 x).mp hx').2)

theorem gatherStep_spec (hrooted : Rooted (up m))
    {acc : InsertionMap α α × InsertionMap α (List α)} (halike : Alike m acc.1)
    (h : Gathered m seen acc.2) (hx : x ∉ seen) :
    ∃ acc', gatherStep acc x = some acc' ∧ Alike m acc'.1 ∧ Gathered m (seen ++ [x]) acc'.2 := by
  obtain ⟨root, hroot⟩ := hrooted x
  obtain ⟨m', hfind, halike'⟩ := find_spec ((halike.roots x root).mpr hroot)
  refine ⟨(m', acc.2.set root ((acc.2.get? root).getD [] ++ [x])), ?_, halike.trans halike', ?_⟩
  · rw [gatherStep, hfind]
    rfl
  have hself : (acc.2.set root ((acc.2.get? root).getD [] ++ [x])).get? root =
      some ((acc.2.get? root).getD [] ++ [x]) := InsertionMap.get?_set_self
  have hother : ∀ r, r ≠ root → (acc.2.set root ((acc.2.get? root).getD [] ++ [x])).get? r =
      acc.2.get? r := fun r hr ↦ InsertionMap.get?_set_ne hr
  refine ⟨fun r ↦ ?_, fun r ↦ ?_, fun r y ↦ ?_⟩
  · by_cases hr : r = root
    · subst hr
      rw [hself]
      simp
    · rw [hother r hr]
      exact h.nonempty r
  · by_cases hr : r = root
    · subst hr
      rw [hself, Option.getD_some]
      refine (h.nodup r).append (List.nodup_singleton x) (List.disjoint_singleton.mpr fun hmem ↦ ?_)
      exact hx ((h.mem r x).mp hmem).1
    · rw [hother r hr]
      exact h.nodup r
  · rw [List.mem_append, List.mem_singleton]
    by_cases hr : r = root
    · subst hr
      rw [hself, Option.getD_some, List.mem_append, List.mem_singleton, h.mem, or_and_right]
      refine or_congr_right ⟨fun hy ↦ ⟨hy, hy ▸ hroot⟩, fun hy ↦ hy.1⟩
    · rw [hother r hr, h.mem, or_and_right]
      refine (or_iff_left ?_).symm
      rintro ⟨rfl, hy⟩
      exact hr (hy.unique hroot)

theorem gather_foldlM (hrooted : Rooted (up m)) {rest : List α}
    {acc : InsertionMap α α × InsertionMap α (List α)} (halike : Alike m acc.1)
    (h : Gathered m seen acc.2) (hnodup : (seen ++ rest).Nodup) :
    ∃ acc', rest.foldlM gatherStep acc = some acc' ∧ Gathered m (seen ++ rest) acc'.2 := by
  induction rest generalizing seen acc with
  | nil => exact ⟨acc, rfl, by rw [List.append_nil]; exact h⟩
  | cons x rest ih =>
      have hx : x ∉ seen := fun hmem ↦
        (List.nodup_append.mp hnodup).2.2 x hmem x List.mem_cons_self rfl
      obtain ⟨acc', hstep, halike', h'⟩ := gatherStep_spec hrooted halike h hx
      rw [List.append_cons] at hnodup ⊢
      obtain ⟨acc'', hrest, h''⟩ := ih halike' h' hnodup
      refine ⟨acc'', ?_, h''⟩
      rw [List.foldlM_cons, hstep]
      exact hrest

/-- **The classes.** -/
theorem gather_spec (hrooted : Rooted (up m)) (hnodup : members.Nodup) :
    ∃ c, gather m members = some c ∧ Gathered m members c := by
  have hempty : Gathered m [] ({} : InsertionMap α (List α)) := by
    refine ⟨fun r h ↦ (nomatch h), fun r ↦ List.nodup_nil, fun r x ↦ ?_⟩
    exact ⟨fun hx ↦ absurd hx List.not_mem_nil, fun hx ↦ absurd hx.1 List.not_mem_nil⟩
  have hfold : ∃ acc, members.foldlM gatherStep (m, {}) = some acc ∧
      Gathered m ([] ++ members) acc.2 :=
    gather_foldlM hrooted (Alike.refl m) hempty hnodup
  obtain ⟨acc, hfold, h⟩ := hfold
  exact ⟨acc.2, by rw [gather, hfold]; rfl, h⟩

end Classes

end UnionFind
