import Mathlib.Tactic.Common
import Mathlib.Data.List.Basic
import Mathlib.Data.Option.Basic

/-!
# Plain data

The trees that texts of structured data parse to, over a type of numbers.  The fields of
an object are a list, so a tree stands for a value only where no object has a key twice.
Two values are the same where their fields are, in whatever order they stand.
-/

universe u

/-- A tree of plain data. -/
inductive Json (ν : Type u) where
  | null
  | bool (b : Bool)
  | num (n : ν)
  | str (s : String)
  | arr (items : List (Json ν))
  | obj (fields : List (String × Json ν))

namespace Json

variable {ν : Type u}

/-- Induction on trees, over the items of an array and the fields of an object. -/
@[elab_as_elim] theorem ind {P : Json ν → Prop} (null : P null) (bool : ∀ b, P (bool b))
    (num : ∀ n, P (num n)) (str : ∀ s, P (str s))
    (arr : ∀ items, (∀ x ∈ items, P x) → P (arr items))
    (obj : ∀ fields, (∀ f ∈ fields, P f.2) → P (obj fields)) (v : Json ν) : P v :=
  @Json.rec ν P (fun items ↦ ∀ x ∈ items, P x) (fun fields ↦ ∀ f ∈ fields, P f.2)
    (fun f ↦ P f.2) null bool num str arr obj (by simp)
    (fun _ _ hx hxs ↦ List.forall_mem_cons.mpr ⟨hx, hxs⟩) (by simp)
    (fun _ _ hf hfs ↦ List.forall_mem_cons.mpr ⟨hf, hfs⟩) (fun _ _ h ↦ h) v

/-- A field of an object. -/
def get : Json ν → String → Option (Json ν)
  | obj fields, k => fields.lookup k
  | _, _ => none

/-- The items, where the value is an array. -/
def items? : Json ν → Option (List (Json ν))
  | arr items => some items
  | _ => none

mutual

/-- No object has a key twice. -/
def distinct : Json ν → Bool
  | arr items => distinctItems items
  | obj fields => (fields.map Prod.fst).Nodup && distinctFields fields
  | _ => true

def distinctItems : List (Json ν) → Bool
  | [] => true
  | x :: xs => distinct x && distinctItems xs

def distinctFields : List (String × Json ν) → Bool
  | [] => true
  | (_, x) :: xs => distinct x && distinctFields xs

end

theorem distinctItems_iff (xs : List (Json ν)) :
    distinctItems xs = true ↔ ∀ x ∈ xs, x.distinct = true := by
  induction xs with
  | nil => simp [distinctItems]
  | cons x xs ih => simp [distinctItems, ih]

theorem distinctFields_iff (xs : List (String × Json ν)) :
    distinctFields xs = true ↔ ∀ f ∈ xs, f.2.distinct = true := by
  induction xs with
  | nil => simp [distinctFields]
  | cons f xs ih =>
      obtain ⟨k, x⟩ := f
      simp [distinctFields, ih]

@[simp] theorem distinct_arr (xs : List (Json ν)) :
    (arr xs).distinct = true ↔ ∀ x ∈ xs, x.distinct = true := by
  rw [distinct, distinctItems_iff]

@[simp] theorem distinct_obj (xs : List (String × Json ν)) :
    (obj xs).distinct = true ↔
      (xs.map Prod.fst).Nodup ∧ ∀ f ∈ xs, f.2.distinct = true := by
  rw [distinct, Bool.and_eq_true, decide_eq_true_iff, distinctFields_iff]

/-! ## Fields -/

section Fields

variable {α : Type u} {xs ys : List (String × α)} {k : String} {x : α}

theorem mem_of_lookup (h : xs.lookup k = some x) : (k, x) ∈ xs := by
  obtain ⟨front, back, rfl, -⟩ := List.lookup_eq_some_iff.mp h
  exact List.mem_append_right _ List.mem_cons_self

theorem lookup_isSome_iff : (xs.lookup k).isSome ↔ k ∈ xs.map Prod.fst := by
  rw [← not_iff_not, Bool.not_eq_true, Option.isSome_eq_false_iff, Option.isNone_iff_eq_none,
    List.lookup_eq_none_iff]
  constructor
  · intro h hk
    obtain ⟨f, hf, rfl⟩ := List.mem_map.mp hk
    exact absurd (h f hf) (by simp)
  · intro h f hf
    exact bne_iff_ne.mpr fun e ↦ h (e ▸ List.mem_map_of_mem hf)

theorem lookup_of_mem (hn : (xs.map Prod.fst).Nodup) (h : (k, x) ∈ xs) :
    xs.lookup k = some x := by
  induction xs with
  | nil => simp at h
  | cons f xs ih =>
      obtain ⟨j, y⟩ := f
      rw [List.map_cons, List.nodup_cons] at hn
      rcases List.mem_cons.mp h with hx | hx
      · obtain ⟨rfl, rfl⟩ := Prod.mk.inj hx
        simp
      · have hk : k ≠ j := by
          rintro rfl
          exact hn.1 (List.mem_map.mpr ⟨_, hx, rfl⟩)
        rw [List.lookup_cons, beq_false_of_ne hk]
        exact ih hn.2 hx

/-- Fields that are kept by their key are looked up as before. -/
theorem lookup_filter (p : String → Bool) (k : String) (xs : List (String × α)) :
    (xs.filter fun f ↦ p f.1).lookup k = if p k then xs.lookup k else none := by
  induction xs with
  | nil => simp
  | cons f xs ih =>
      obtain ⟨j, y⟩ := f
      rw [List.filter_cons]
      by_cases hk : k = j
      · subst hk
        by_cases hp : p k = true
        · simp [hp]
        · simp only [hp, Bool.false_eq_true, ↓reduceIte] at ih ⊢
          exact ih
      · have hb : (k == j) = false := beq_false_of_ne hk
        by_cases hp : p j = true
        · rw [if_pos hp, List.lookup_cons, List.lookup_cons, hb]
          exact ih
        · rw [if_neg hp, List.lookup_cons, hb]
          exact ih

end Fields

/-! ## The same value -/

/-- The same value: item by item, and field by field in whatever order. -/
inductive Same : Json ν → Json ν → Prop where
  | null : Same null null
  | bool (b : Bool) : Same (bool b) (bool b)
  | num (n : ν) : Same (num n) (num n)
  | str (s : String) : Same (str s) (str s)
  | arr {xs ys : List (Json ν)} (length : xs.length = ys.length)
      (each : ∀ (i : Nat) x y, xs[i]? = some x → ys[i]? = some y → Same x y) :
      Same (arr xs) (arr ys)
  | obj {xs ys : List (String × Json ν)}
      (keys : ∀ k, (xs.lookup k).isSome = (ys.lookup k).isSome)
      (each : ∀ k x y, xs.lookup k = some x → ys.lookup k = some y → Same x y) :
      Same (obj xs) (obj ys)

/-- The same field: absent from both, or there with the same value. -/
def SameField (x y : Option (Json ν)) : Prop := Option.Rel Same x y

theorem sameField_iff {x y : Option (Json ν)} :
    SameField x y ↔ x.isSome = y.isSome ∧ ∀ v w, x = some v → y = some w → Same v w := by
  cases x <;> cases y <;> simp [SameField]

theorem same_obj_iff {xs ys : List (String × Json ν)} :
    Same (obj xs) (obj ys) ↔ ∀ k, SameField (xs.lookup k) (ys.lookup k) := by
  simp only [sameField_iff]
  constructor
  · rintro (_ | _ | _ | _ | _ | ⟨keys, each⟩)
    exact fun k ↦ ⟨keys k, each k⟩
  · exact fun h ↦ .obj (fun k ↦ (h k).1) fun k ↦ (h k).2

end Json
