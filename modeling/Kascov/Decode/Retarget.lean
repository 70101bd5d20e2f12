import Kascov.Decode.Observed
import Kascov.Lib.Splice
import Kascov.Token.State

/-!
# Replacing a field of a program

A program that a skeleton matches is at least as long as what the skeleton emits for its
fields, and is that very script where it is no longer: then every push has the form it is
emitted in.  So the bytes of one field can be overwritten in the program itself, if they are
found at the slot.
-/

namespace Kascov

open Bindings Splice

/-! ## The shortest push -/

/-- The prefix of a length is the shortest declaration of it. -/
theorem Declares.lengthPrefix_shortest {opcode : UInt8} {header : Bytes} {n : Nat}
    (h : Declares opcode header n) :
    lengthPrefix n = opcode :: header ∨ (lengthPrefix n).length < (opcode :: header).length := by
  by_cases hleast : leastLength opcode ≤ n
  · exact .inl (h.eq_lengthPrefix hleast).symm
  · refine .inr ?_
    cases h with
    | direct hop =>
        -- a length in the opcode is in the least form
        have hne : ∀ m : UInt8, 0x4b < m → opcode ≠ m := by
          rintro m hm rfl
          exact absurd hop.2 (UInt8.not_le.mpr hm)
        rw [leastLength, if_neg (hne 0x4c (by decide)), if_neg (hne 0x4d (by decide)),
          if_neg (hne 0x4e (by decide))] at hleast
        exact absurd (Nat.zero_le _) hleast
    | pushData1 a =>
        have hlt : a.toNat < 76 := Nat.lt_of_not_le hleast
        rw [lengthPrefix, if_pos (by omega)]
        exact Nat.one_lt_two
    | pushData2 a b =>
        have hlt : a.toNat + 2 ^ 8 * b.toNat < 0x100 := Nat.lt_of_not_le hleast
        unfold lengthPrefix
        split
        · exact Nat.one_lt_succ_succ 1
        · rw [if_pos (by omega)]
          exact Nat.lt_succ_self 2
    | pushData4 a b c d =>
        have hlt : a.toNat + 2 ^ 8 * b.toNat + 2 ^ 16 * c.toNat + 2 ^ 24 * d.toNat < 0x10000 :=
          Nat.lt_of_not_le hleast
        unfold lengthPrefix
        split
        · exact Nat.one_lt_succ_succ 3
        · split
          · exact Nat.lt_of_sub_eq_succ rfl
          · rw [if_pos (by omega)]
            exact Nat.lt_of_sub_eq_succ rfl

/-- A push of a script is the emitted form of its value, or is longer. -/
theorem Declares.encodePush_shortest {opcode : UInt8} {header data : Bytes}
    (h : Declares opcode header data.length) :
    encodePush data = opcode :: (header ++ data) ∨
      (encodePush data).length < (opcode :: (header ++ data)).length := by
  rw [encodePush]
  split
  · -- the value has an opcode of its own, which is shorter than any header with data
    refine .inr ?_
    simp only [List.length_cons, List.length_append, List.length_nil]
    generalize data.length = n at h
    cases h with
    | direct hop =>
        have hpos : 0x01 ≤ opcode.toNat := UInt8.le_iff_toNat_le.mp hop.1
        omega
    | pushData1 a =>
        simp only [List.length_cons]
        omega
    | pushData2 a b =>
        simp only [List.length_cons]
        omega
    | pushData4 a b c d =>
        simp only [List.length_cons]
        omega
  · rcases h.lengthPrefix_shortest with heq | hlt
    · exact .inl (by rw [heq, List.cons_append])
    · refine .inr ?_
      rw [← List.cons_append, List.length_append, List.length_append]
      exact Nat.add_lt_add_right hlt _

/-! ## Emitting what is matched -/

/-- A constant is emitted in the form that its value is pushed in. -/
def SkelItem.Minimal : SkelItem → Prop
  | .constPush value raw => raw = encodePush value
  | _ => True

instance : DecidablePred SkelItem.Minimal
  | .op _ => .isTrue trivial
  | .constPush value raw => inferInstanceAs (Decidable (raw = encodePush value))
  | .slot _ => .isTrue trivial

/-- What an item that admits an instruction emits: the opcode, or the value pushed. -/
theorem emitItem_of_admits {args : SlotValues} {item : SkelItem} {inst : Instruction}
    {items : List SkelItem} {insts : List Instruction} (hadmits : item.Admits inst)
    (hminimal : item.Minimal)
    (hargs : ∀ e ∈ slotData (item :: items) (inst :: insts), find args e.1 = some e) :
    (isPush inst = false ∧ emitItem args item = some [inst.opcode]) ∨
      ∃ v, pushValue inst = some v ∧ emitItem args item = some (encodePush v) := by
  cases item with
  | op opcode =>
      refine .inl ⟨hadmits.1, ?_⟩
      rw [emitItem, hadmits.2]
  | constPush value raw => exact .inr ⟨value, hadmits, congrArg some hminimal⟩
  | slot label =>
      obtain ⟨v, hv⟩ := hadmits
      have hmem : (label, v) ∈ slotData (.slot label :: items) (inst :: insts) := by
        rw [slotData, hv]
        exact List.mem_cons_self
      exact .inr ⟨v, hv, congrArg (Option.map _) (hargs _ hmem)⟩

theorem slotData_tail {item : SkelItem} {inst : Instruction} {items : List SkelItem}
    {insts : List Instruction} {e : String × Bytes} (h : e ∈ slotData items insts) :
    e ∈ slotData (item :: items) (inst :: insts) := by
  obtain ⟨label, v⟩ := e
  cases item with
  | op opcode => exact h
  | constPush value raw => exact h
  | slot label' =>
      rw [slotData]
      split
      · exact List.mem_cons_of_mem _ h
      · exact h

/-- What is emitted for the values that a script pushes is the script, or is shorter. -/
theorem Reads.emitItems_shortest {offset : Nat} {bytes : Bytes} {insts : List Instruction}
    {truncated : Bool} (h : Reads offset bytes insts truncated) (hwhole : truncated = false)
    {args : SlotValues} {items : List SkelItem}
    (hadmits : List.Forall₂ (fun item inst ↦ item.Admits inst) items insts)
    (hminimal : ∀ item ∈ items, item.Minimal)
    (hargs : ∀ e ∈ slotData items insts, find args e.1 = some e) :
    ∃ out, emitItems args items = some out ∧ (out = bytes ∨ out.length < bytes.length) := by
  induction h generalizing items with
  | done =>
      cases hadmits with
      | nil => exact ⟨[], rfl, .inl rfl⟩
  | @op offset opcode rest insts truncated hlen _ ih =>
      cases hadmits with
      | @cons item _ items _ hitem hitems =>
          obtain ⟨out, hout, hshort⟩ := ih hwhole hitems
            (fun item hitem ↦ hminimal item (List.mem_cons_of_mem _ hitem))
            fun e he ↦ hargs e (slotData_tail he)
          have hfirst : emitItem args item = some [opcode] := by
            rcases emitItem_of_admits hitem (hminimal item List.mem_cons_self) hargs with
              ⟨-, hemit⟩ | ⟨v, hv, hemit⟩
            · exact hemit
            · rw [hemit, Kascov.encodePush, pushValue_bare hv]
          refine ⟨[opcode] ++ out, by rw [emitItems, hfirst, hout]; rfl, ?_⟩
          rcases hshort with rfl | hlt
          · exact .inl rfl
          · exact .inr (Nat.succ_lt_succ hlt)
  | @push offset opcode header data rest insts truncated hlen _ ih =>
      cases hadmits with
      | @cons item _ items _ hitem hitems =>
          obtain ⟨out, hout, hshort⟩ := ih hwhole hitems
            (fun item hitem ↦ hminimal item (List.mem_cons_of_mem _ hitem))
            fun e he ↦ hargs e (slotData_tail he)
          have hfirst : emitItem args item = some (Kascov.encodePush data) := by
            rcases emitItem_of_admits hitem (hminimal item List.mem_cons_self) hargs with
              ⟨hnot, -⟩ | ⟨v, hv, hemit⟩
            · rw [isPush_of_declares ⟨offset, opcode, some data⟩ hlen] at hnot
              cases hnot
            · obtain rfl := Option.some.inj hv
              exact hemit
          refine ⟨Kascov.encodePush data ++ out, by rw [emitItems, hfirst, hout]; rfl, ?_⟩
          have hbytes : opcode :: (header ++ (data ++ rest)) =
              opcode :: (header ++ data) ++ rest := by
            rw [List.cons_append, List.append_assoc]
          rw [hbytes, List.length_append, List.length_append]
          rcases hlen.encodePush_shortest with heq | hltPush
          · rw [heq]
            rcases hshort with rfl | hlt
            · exact .inl rfl
            · exact .inr (Nat.add_lt_add_left hlt _)
          · refine .inr (Nat.add_lt_add_of_lt_of_le hltPush ?_)
            rcases hshort with rfl | hlt
            · exact le_rfl
            · exact hlt.le
  | cut => cases hwhole

/-- What an instruction carries stands in the script. -/
theorem Reads.stands {offset : Nat} {bytes : Bytes} {insts : List Instruction} {truncated : Bool}
    (h : Reads offset bytes insts truncated) {inst : Instruction} (hinst : inst ∈ insts)
    {data : Bytes} (hdata : inst.data = some data) : ∃ pos, StandsAt data bytes pos := by
  induction h with
  | done => cases hinst
  | @op offset opcode rest insts truncated hlen _ ih =>
      rcases List.mem_cons.mp hinst with rfl | hinst
      · cases hdata
      · obtain ⟨_, head, tail, rfl, -⟩ := ih hinst
        exact ⟨_, opcode :: head, tail, rfl, rfl⟩
  | @push offset opcode header carried rest insts truncated hlen _ ih =>
      rcases List.mem_cons.mp hinst with rfl | hinst
      · obtain rfl := Option.some.inj hdata
        exact ⟨_, opcode :: header, rest, by rw [List.cons_append], rfl⟩
      · obtain ⟨_, head, tail, rfl, -⟩ := ih hinst
        refine ⟨_, opcode :: (header ++ (carried ++ head)), tail, ?_, rfl⟩
        simp only [List.cons_append, List.append_assoc]
  | cut =>
      obtain rfl := List.mem_singleton.mp hinst
      cases hdata

/-! ## Fields as arguments -/

/-- The arguments that give each slot its field. -/
def fieldArgs (fields : List Field) : SlotValues := fields.map fun f ↦ (f.name, f.value)

/-- The fields, with another value of one of them. -/
def replaceField (fields : List Field) (name : String) (value : Bytes) : List Field :=
  fields.map fun f ↦ if f.name = name then ⟨name, value⟩ else f

theorem find_fieldArgs (fields : List Field) (name : String) :
    find (fieldArgs fields) name = (fieldNamed fields name).map fun v ↦ (name, v) := by
  rw [fieldArgs, find, List.find?_map, fieldNamed, Option.map_map]
  change Option.map _ (fields.find? fun f ↦ decide (f.name = name)) = _
  cases hfind : fields.find? fun f ↦ decide (f.name = name) with
  | none => rfl
  | some f =>
      have hname : f.name = name := of_decide_eq_true (List.find?_some hfind :)
      rw [← hname]
      rfl

/-- The fields in order give each slot the value that is pushed there. -/
theorem fieldArgs_fieldsInOrder {order : List String} {values : SlotValues}
    (hvalues : Functional values) {e : String × Bytes} (he : e ∈ values) (horder : e.1 ∈ order) :
    find (fieldArgs (fieldsInOrder order values)) e.1 = some e := by
  have hargs : fieldArgs (fieldsInOrder order values) = order.filterMap (find values) := by
    rw [fieldArgs, fieldsInOrder, List.map_filterMap]
    refine List.filterMap_congr fun label _ ↦ ?_
    cases hfind : values.find? (·.1 = label) with
    | none => exact hfind.symm
    | some found =>
        obtain ⟨-, rfl⟩ := find_eq_some hfind
        exact hfind.symm
  have hsub : ∀ x ∈ order.filterMap (find values), x ∈ values := by
    intro x hx
    obtain ⟨label, -, hlabel⟩ := List.mem_filterMap.mp hx
    exact (find_eq_some hlabel).1
  rw [hargs]
  refine Functional.find_of_mem (fun k u v hu hv ↦ hvalues k u v (hsub _ hu) (hsub _ hv)) ?_
  exact List.mem_filterMap.mpr ⟨e.1, horder, hvalues.find_of_mem he⟩

theorem fieldNamed_replaceField (fields : List Field) (name : String) (value : Bytes)
    (label : String) : fieldNamed (replaceField fields name value) label =
      if label = name then (fieldNamed fields name).map fun _ ↦ value
      else fieldNamed fields label := by
  have hsame : ((fun f : Field ↦ decide (f.name = label)) ∘
      fun f ↦ if f.name = name then ⟨name, value⟩ else f) = fun f ↦ decide (f.name = label) := by
    funext f
    by_cases h : f.name = name
    · simp [h]
    · simp [h]
  rw [fieldNamed, replaceField, List.find?_map, hsame]
  by_cases hlabel : label = name
  · subst hlabel
    rw [if_pos rfl, fieldNamed]
    cases hfind : fields.find? fun f ↦ decide (f.name = label) with
    | none => rfl
    | some f =>
        have hname : f.name = label := of_decide_eq_true (List.find?_some hfind :)
        simp [hname]
  · rw [if_neg hlabel, fieldNamed]
    cases hfind : fields.find? fun f ↦ decide (f.name = label) with
    | none => rfl
    | some f =>
        have hname : f.name = label := of_decide_eq_true (List.find?_some hfind :)
        have hne : f.name ≠ name := hname ▸ hlabel
        simp [hne]

/-! ## One slot -/

/-- A skeleton that emits a label at one slot, names every slot, and has its constants in the
form that values are pushed in. -/
structure Skeleton.OneSlot (sk : Skeleton) (label : String) : Prop where
  once : (slotLabels sk.items).count label = 1
  named : ∀ l ∈ slotLabels sk.items, l ∈ sk.paramOrder
  minimal : ∀ item ∈ sk.items, item.Minimal

/-- Where a field of 32 bytes is emitted: after the items before its slot, and the opcode of
its push. -/
def Skeleton.slotOffset (sk : Skeleton) (args : SlotValues) (label : String) : Option Nat :=
  (emitItems args (sk.items.takeWhile (· ≠ .slot label))).map (·.length + 1)

theorem mem_slotLabels {items : List SkelItem} {label : String} :
    label ∈ slotLabels items ↔ .slot label ∈ items := by
  rw [slotLabels, List.mem_filterMap]
  constructor
  · rintro ⟨item, hitem, hlabel⟩
    cases item with
    | op opcode => cases hlabel
    | constPush value raw => cases hlabel
    | slot l =>
        obtain rfl := Option.some.inj hlabel
        exact hitem
  · exact fun h ↦ ⟨.slot label, h, rfl⟩

theorem slotData_label {items : List SkelItem} {insts : List Instruction} {label : String}
    {v : Bytes} (h : (label, v) ∈ slotData items insts) : label ∈ slotLabels items := by
  obtain ⟨i, inst, hitem, -⟩ := mem_slotData.mp h
  exact mem_slotLabels.mpr (List.mem_of_getElem? hitem)

theorem slotLabels_append (xs ys : List SkelItem) :
    slotLabels (xs ++ ys) = slotLabels xs ++ slotLabels ys := List.filterMap_append

/-- The items around the one slot of a label. -/
theorem exists_around {items : List SkelItem} {label : String}
    (h : (slotLabels items).count label = 1) : ∃ before after,
      items = before ++ .slot label :: after ∧ label ∉ slotLabels before ∧
        label ∉ slotLabels after := by
  have hmem : label ∈ slotLabels items := List.count_pos_iff.mp (h ▸ Nat.one_pos)
  obtain ⟨before, after, rfl, hbefore⟩ := List.eq_append_cons_of_mem (mem_slotLabels.mp hmem)
  refine ⟨before, after, rfl, fun hin ↦ hbefore (mem_slotLabels.mp hin), fun hin ↦ ?_⟩
  have hafter := List.count_pos_iff.mpr hin
  have hcons : slotLabels (.slot label :: after) = label :: slotLabels after := rfl
  rw [slotLabels_append, hcons, List.count_append, List.count_cons_self] at h
  omega

theorem emitItems_append (args : SlotValues) (xs ys : List SkelItem) :
    emitItems args (xs ++ ys) =
      (emitItems args xs).bind fun out ↦ (emitItems args ys).map (out ++ ·) := by
  induction xs with
  | nil =>
      rw [List.nil_append, emitItems, Option.bind_some]
      exact (Option.map_id_fun' ▸ rfl : emitItems args ys = (emitItems args ys).map fun x ↦ x)
  | cons item xs ih =>
      rw [List.cons_append, emitItems, emitItems, ih]
      cases emitItem args item with
      | none => rfl
      | some first =>
          cases emitItems args xs with
          | none => rfl
          | some out =>
              cases emitItems args ys with
              | none => rfl
              | some last => exact congrArg some (List.append_assoc first out last).symm

/-- What is emitted depends on the arguments of the slots only. -/
theorem emitItems_congr {args args' : SlotValues} {items : List SkelItem}
    (h : ∀ label ∈ slotLabels items, find args label = find args' label) :
    emitItems args items = emitItems args' items := by
  induction items with
  | nil => rfl
  | cons item items ih =>
      cases item with
      | op opcode =>
          rw [emitItems, emitItems, ih h]
          rfl
      | constPush value raw =>
          rw [emitItems, emitItems, ih h]
          rfl
      | slot label =>
          have hhere : find args label = find args' label := h label List.mem_cons_self
          have hitem : emitItem args (.slot label) = emitItem args' (.slot label) :=
            congrArg (Option.map _) hhere
          rw [emitItems, emitItems, hitem, ih fun l hl ↦ h l (List.mem_cons_of_mem _ hl)]

/-- A push of 32 bytes. -/
theorem encodePush_32 {value : Bytes} (h : value.length = 32) :
    encodePush value = 0x20 :: value := by
  have hsmall : smallOpcode value = none := by
    match value, h with
    | _ :: _ :: _, _ => rfl
  rw [encodePush, hsmall, h]
  rfl

/-! ## Replacing a field -/

/-- What a skeleton emits for the fields of a script: around the slot of a label, the same
whatever its value. -/
structure EmittedAround (sk : Skeleton) (fields : List Field) (label : String) (value : Bytes)
    (head tail : Bytes) : Prop where
  offset : sk.slotOffset (fieldArgs fields) label = some (head.length + 1)
  emits : sk.emit (fieldArgs fields) = some (head ++ (encodePush value ++ tail))
  replaced : ∀ new, sk.emit (fieldArgs (replaceField fields label new)) =
    some (head ++ (encodePush new ++ tail))

section

variable {sk : Skeleton} {label : String} {script : Bytes} {fields : List Field} {value : Bytes}

/-- What the slots of a matched script push is in its fields. -/
theorem find_of_slotData (hslot : sk.OneSlot label)
    (hmatch : sk.matchScript (disassemble script).1 = some fields) :
    ∀ e ∈ slotData sk.items (disassemble script).1, find (fieldArgs fields) e.1 = some e := by
  obtain ⟨-, hagree, rfl⟩ := matchScript_eq_some.mp hmatch
  exact fun e he ↦ fieldArgs_fieldsInOrder hagree he (hslot.named _ (slotData_label he))

/-- The fields have the one slot's. -/
theorem exists_fieldNamed (hslot : sk.OneSlot label)
    (hmatch : sk.matchScript (disassemble script).1 = some fields) :
    ∃ value, fieldNamed fields label = some value ∧
      (label, value) ∈ slotData sk.items (disassemble script).1 := by
  have hlabel : label ∈ slotLabels sk.items :=
    List.count_pos_iff.mp (hslot.once ▸ Nat.one_pos)
  obtain ⟨hadmits, -, -⟩ := matchScript_eq_some.mp hmatch
  obtain ⟨i, hi⟩ := List.mem_iff_getElem?.mp (mem_slotLabels.mp hlabel)
  obtain ⟨hlt, hitem⟩ := List.getElem?_eq_some_iff.mp hi
  have hadmit := List.Forall₂.get hadmits hlt (hadmits.length_eq ▸ hlt)
  rw [List.get_eq_getElem, List.get_eq_getElem, hitem] at hadmit
  obtain ⟨value, hvalue⟩ := hadmit
  have hmem : (label, value) ∈ slotData sk.items (disassemble script).1 :=
    mem_slotData.mpr ⟨i, _, hi, List.getElem?_eq_getElem _, hvalue⟩
  have hfind := find_of_slotData hslot hmatch _ hmem
  rw [find_fieldArgs] at hfind
  obtain ⟨v, hv, heq⟩ := Option.map_eq_some_iff.mp hfind
  exact ⟨value, (Prod.mk.inj heq).2 ▸ hv, hmem⟩

/-- A field of 32 bytes stands in the script. -/
theorem field_stands (hslot : sk.OneSlot label)
    (hmatch : sk.matchScript (disassemble script).1 = some fields)
    (hvalue : fieldNamed fields label = some value) (hlen : value.length = 32) :
    ∃ pos, StandsAt value script pos := by
  obtain ⟨v, hv, hmem⟩ := exists_fieldNamed hslot hmatch
  obtain rfl := Option.some.inj (hvalue.symm.trans hv)
  obtain ⟨i, inst, -, hinst, hpushed⟩ := mem_slotData.mp hmem
  suffices hdata : inst.data = some value from
    (disassemble_reads script).stands (List.mem_of_getElem? hinst) hdata
  cases hdata : inst.data with
  | some data =>
      rw [pushValue, hdata] at hpushed
      exact hpushed
  | none =>
      -- a push without data is of one byte at most
      obtain ⟨offset, opcode, data⟩ := inst
      obtain rfl : data = none := hdata
      have hsmall := pushValue_bare hpushed
      rcases smallOpcode_cases hsmall with ⟨rfl, -⟩ | ⟨rfl, -⟩ | ⟨b, rfl, -⟩
      · cases hlen
      · cases hlen
      · cases hlen

theorem emitted_around (hslot : sk.OneSlot label)
    (hmatch : sk.matchScript (disassemble script).1 = some fields)
    (hwhole : (disassemble script).2 = false) (hvalue : fieldNamed fields label = some value) :
    ∃ head tail, EmittedAround sk fields label value head tail ∧
      (head ++ (encodePush value ++ tail) = script ∨
        (head ++ (encodePush value ++ tail)).length < script.length) := by
  obtain ⟨hadmits, -, -⟩ := matchScript_eq_some.mp hmatch
  obtain ⟨out, hout, hshort⟩ := (disassemble_reads script).emitItems_shortest hwhole hadmits
    hslot.minimal (find_of_slotData hslot hmatch)
  obtain ⟨before, after, hitems, hbefore, hafter⟩ := exists_around hslot.once
  have hemitSlot : ∀ {args : SlotValues} {v : Bytes}, find args label = some (label, v) →
      emitItems args (.slot label :: after) = (emitItems args after).map (encodePush v ++ ·) := by
    intro args v hv
    have hitem : emitItem args (.slot label) = some (encodePush v) := congrArg (Option.map _) hv
    rw [emitItems, hitem]
  have hfind : find (fieldArgs fields) label = some (label, value) := by
    rw [find_fieldArgs, hvalue, Option.map_some]
  rw [hitems, emitItems_append, hemitSlot hfind] at hout
  obtain ⟨head, hhead, hout⟩ := Option.bind_eq_some_iff.mp hout
  obtain ⟨rest, hrest, rfl⟩ := Option.map_eq_some_iff.mp hout
  obtain ⟨tail, htail, rfl⟩ := Option.map_eq_some_iff.mp hrest
  refine ⟨head, tail, ⟨?_, ?_, fun new ↦ ?_⟩, hshort⟩
  · have htake : sk.items.takeWhile (· ≠ .slot label) = before := by
      rw [hitems, List.takeWhile_append_of_pos fun item hitem ↦ ?_]
      · simp
      · simp only [ne_eq, decide_eq_true_eq]
        rintro rfl
        exact hbefore (mem_slotLabels.mpr hitem)
    rw [Skeleton.slotOffset, htake, hhead, Option.map_some]
  · rw [Skeleton.emit, hitems, emitItems_append, hemitSlot hfind, hhead, htail]
    rfl
  · have hothers : ∀ items : List SkelItem, label ∉ slotLabels items →
        emitItems (fieldArgs (replaceField fields label new)) items =
          emitItems (fieldArgs fields) items := by
      refine fun items hnot ↦ emitItems_congr fun l hl ↦ ?_
      rw [find_fieldArgs, find_fieldArgs, fieldNamed_replaceField,
        if_neg (ne_of_mem_of_not_mem hl hnot)]
    have hnew : find (fieldArgs (replaceField fields label new)) label = some (label, new) := by
      rw [find_fieldArgs, fieldNamed_replaceField, if_pos rfl, hvalue]
      rfl
    rw [Skeleton.emit, hitems, emitItems_append, hemitSlot hnew, hothers before hbefore,
      hothers after hafter, hhead, htail]
    rfl

/-- Overwriting the first occurrence of a field of 32 bytes gives the script with that field
replaced exactly when the script is in the form it is emitted in and the field does not
occur before its slot, or is its own replacement. -/
theorem splice_retargets {old new : Bytes} (hslot : sk.OneSlot label)
    (hmatch : sk.matchScript (disassemble script).1 = some fields)
    (hwhole : (disassemble script).2 = false) (hold : fieldNamed fields label = some old)
    (hlen : old.length = 32) (hnew : new.length = 32) :
    ∃ program, sk.emit (fieldArgs (replaceField fields label new)) = some program ∧
      (splice old new script = some program ↔
        sk.emit (fieldArgs fields) = some script ∧
          (position old script = sk.slotOffset (fieldArgs fields) label ∨ new = old)) := by
  obtain ⟨head, tail, haround, hshort⟩ := emitted_around hslot hmatch hwhole hold
  have hlength : (head ++ (encodePush new ++ tail)).length =
      (head ++ (encodePush old ++ tail)).length := by
    rw [encodePush_32 hlen, encodePush_32 hnew]
    simp only [List.length_append, List.length_cons, hlen, hnew]
  have hat : ∀ v : Bytes, v.length = 32 →
      head ++ (encodePush v ++ tail) = head ++ [0x20] ++ (v ++ tail) := by
    intro v hv
    rw [encodePush_32 hv, List.append_assoc, List.cons_append, List.singleton_append]
  have hsplice : head ++ (encodePush old ++ tail) = script →
      (splice old new script = some (head ++ (encodePush new ++ tail)) ↔
        position old script = sk.slotOffset (fieldArgs fields) label ∨ new = old) := by
    rintro rfl
    rw [hat old hlen, hat new hnew, splice_eq_iff (hnew.trans hlen.symm), haround.offset,
      List.length_append, List.length_singleton]
  refine ⟨_, haround.replaced new, ?_⟩
  rw [haround.emits, Option.some.injEq]
  constructor
  · intro h
    have hkeep : (head ++ (encodePush new ++ tail)).length = script.length :=
      length_splice h (hnew.trans hlen.symm)
    have heq : head ++ (encodePush old ++ tail) = script := hshort.resolve_right (by omega)
    exact ⟨heq, (hsplice heq).mp h⟩
  · rintro ⟨heq, hwhere⟩
    exact (hsplice heq).mpr hwhere

end

end Kascov
