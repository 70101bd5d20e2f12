import Kascov.Decode.Registry
import Kascov.Lib.Bindings

/-!
# What a skeleton matches

A skeleton accepts instructions of its length that each item admits and that push one
value for each label.  The fields are the values pushed.
-/

namespace Kascov

open Bindings

/-- The values pushed at the slots, with the labels of the slots. -/
def slotData : List SkelItem → List Instruction → SlotValues
  | .slot label :: items, inst :: insts =>
      match pushValue inst with
      | some v => (label, v) :: slotData items insts
      | none => slotData items insts
  | _ :: items, _ :: insts => slotData items insts
  | _, _ => []

/-- What an item asks of an instruction by itself. -/
def SkelItem.Admits (inst : Instruction) : SkelItem → Prop
  | .op opcode => isPush inst = false ∧ inst.opcode = opcode
  | .constPush value _ => pushValue inst = some value
  | .slot _ => ∃ v, pushValue inst = some v

/-- The labels of the slots. -/
def slotLabels (items : List SkelItem) : List String :=
  items.filterMap fun
    | .slot label => some label
    | _ => none

theorem matchSkelItem_slot {label : String} {inst : Instruction} {v : Bytes} {values : SlotValues}
    (h : pushValue inst = some v) :
    matchSkelItem (.slot label) inst values = bindOne values (label, v) := by
  rw [matchSkelItem, h, bindOne, find]
  cases values.find? (·.1 = label) with
  | none => rfl
  | some prev => rfl

/-- Matching binds the values pushed at the slots, where the items admit the
instructions. -/
theorem matchItems_of_admits {items : List SkelItem} {insts : List Instruction}
    (h : List.Forall₂ (fun item inst ↦ item.Admits inst) items insts) (values : SlotValues) :
    matchItems items insts values = bindAll (slotData items insts) values := by
  induction h generalizing values with
  | nil => rfl
  | @cons item inst items insts hadmits _ ih =>
      rw [matchItems]
      cases item with
      | op opcode =>
          obtain ⟨hpush, hop⟩ := hadmits
          have hitem : matchSkelItem (.op opcode) inst values = some values := by
            simp [matchSkelItem, hpush, hop]
          rw [hitem, Option.bind_some, ih, slotData]
          exact fun _ hslot ↦ nomatch hslot
      | constPush value raw =>
          have hitem : matchSkelItem (.constPush value raw) inst values = some values :=
            if_pos hadmits
          rw [hitem, Option.bind_some, ih, slotData]
          exact fun _ hslot ↦ nomatch hslot
      | slot label =>
          obtain ⟨v, hv⟩ := hadmits
          rw [matchSkelItem_slot hv, slotData, hv]
          exact Option.bind_congr fun mid _ ↦ ih mid

theorem matchSkelItem_admits {item : SkelItem} {inst : Instruction} {values values' : SlotValues}
    (h : matchSkelItem item inst values = some values') : item.Admits inst := by
  cases item with
  | op opcode =>
      simp only [matchSkelItem] at h
      split at h
      · rename_i hitem
        simpa [SkelItem.Admits] using hitem
      · cases h
  | constPush value raw =>
      simp only [matchSkelItem] at h
      split at h
      · rename_i hitem
        exact hitem
      · cases h
  | slot label =>
      simp only [matchSkelItem] at h
      split at h
      · cases h
      · rename_i v hv
        exact ⟨v, hv⟩

theorem admits_of_matchItems {items : List SkelItem} {insts : List Instruction}
    {values values' : SlotValues} (hlen : insts.length = items.length)
    (h : matchItems items insts values = some values') :
    List.Forall₂ (fun item inst ↦ item.Admits inst) items insts := by
  induction items generalizing insts values with
  | nil =>
      rw [List.length_eq_zero_iff.mp hlen]
      exact .nil
  | cons item items ih =>
      obtain ⟨inst, insts, rfl⟩ := List.exists_cons_of_length_eq_add_one hlen
      obtain ⟨mid, hmid, hrest⟩ := Option.bind_eq_some_iff.mp h
      exact .cons (matchSkelItem_admits hmid) (ih (Nat.succ.inj hlen) hrest)

/-- One value for each label. -/
def Agree (items : List SkelItem) (insts : List Instruction) : Prop :=
  Functional (slotData items insts)

/-- The fields of the values pushed. -/
theorem fieldsInOrder_congr {order : List String} {values values' : SlotValues}
    (h : ∀ label, find values label = find values' label) :
    fieldsInOrder order values = fieldsInOrder order values' := by
  refine List.filterMap_congr fun label _ ↦ ?_
  exact congrArg (Option.map _) (h label)

theorem matchScript_eq_some {sk : Skeleton} {insts : List Instruction} {fields : List Field} :
    sk.matchScript insts = some fields ↔
      List.Forall₂ (fun item inst ↦ item.Admits inst) sk.items insts ∧
        Agree sk.items insts ∧ fields = fieldsInOrder sk.paramOrder (slotData sk.items insts) := by
  constructor
  · intro h
    unfold Skeleton.matchScript at h
    split at h
    · cases h
    · rename_i hlen
      obtain ⟨values, hvalues, rfl⟩ := Option.map_eq_some_iff.mp h
      have hadmits := admits_of_matchItems (not_not.mp hlen) hvalues
      rw [matchItems_of_admits hadmits] at hvalues
      refine ⟨hadmits, ?_, fieldsInOrder_congr (bindAll_eq_some hvalues).1⟩
      exact (bindAll_isSome functional_nil).mp (by rw [hvalues]; rfl)
  · rintro ⟨hadmits, hagree, rfl⟩
    obtain ⟨values, hvalues⟩ :=
      Option.isSome_iff_exists.mp ((bindAll_isSome functional_nil).mpr hagree)
    rw [Skeleton.matchScript, if_neg (not_not.mpr hadmits.length_eq.symm),
      matchItems_of_admits hadmits, hvalues, Option.map_some]
    exact congrArg some (fieldsInOrder_congr (bindAll_eq_some hvalues).1)

end Kascov
