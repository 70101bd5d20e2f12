import Kascov.Decode.Derive

/-!
# Skeletons of observed instances

A skeleton derived from instances of a contract on the chain, and one of a family
whose builds repeat a group of instructions.  Where every instance pushes one value it
is a constant; elsewhere it is a slot, and positions at which the instances push the
same values share one.
-/

namespace Kascov

open Bindings

/-! ## One position of the instances -/

/-- One turn of the loop over positions: the item of the instructions there, and the
slots known so far, as the values that the instances push. -/
def observedItem (labels : List String) (raw : Bytes) (column : List Instruction)
    (slots : List (List Bytes)) : Option (SkelItem × List (List Bytes)) :=
  match column with
  | [] => none
  | inst :: _ =>
      if !isPush inst then
        if column.any fun x ↦ isPush x || x.opcode != inst.opcode then none
        else some (.op inst.opcode, slots)
      else
        match column.mapM pushValue with
        | none => none
        | some vector =>
            if vector.all (· = vector.headD []) then
              some (.constPush (vector.headD []) raw, slots)
            else
              match slots.findIdx? (· = vector) with
              | some slot => (labels[slot]?).map fun label ↦ (.slot label, slots)
              | none => (labels[slots.length]?).map fun label ↦ (.slot label, slots ++ [vector])

/-- The loop over positions. -/
def observedItems (labels : List String) : List (Bytes × List Instruction) →
    List (List Bytes) → Option (List SkelItem × List (List Bytes))
  | [], slots => some ([], slots)
  | (raw, column) :: cells, slots =>
      match observedItem labels raw column slots with
      | none => none
      | some (item, slots) =>
          (observedItems labels cells slots).map fun out ↦ (item :: out.1, out.2)

/-- The instances, disassembled: none is cut off, and all have one length. -/
def parseInstances (instances : List Bytes) : Option (List (List Instruction)) :=
  let streams := instances.map fun bytes ↦ (disassemble bytes).1
  if (instances.any fun bytes ↦ (disassemble bytes).2) ||
      streams.any fun s ↦ s.length != (streams.headD []).length then none
  else some streams

/-- The instructions at a position. -/
def column (streams : List (List Instruction)) (i : Nat) : List Instruction :=
  streams.filterMap (·[i]?)

/-- The bytes of the instruction at a position. -/
def rawAt (bytes : Bytes) (insts : List Instruction) (i : Nat) : Bytes :=
  (((spans bytes.length insts)[i]?).map (·.raw bytes)).getD []

/-- `Skeleton::derive_observed`. -/
def Skeleton.deriveObserved (name : String) (instances : List Bytes) (labels : List String) :
    Option Skeleton :=
  if instances.length < 2 then none
  else
    match parseInstances instances with
    | none => none
    | some streams =>
        let first := streams.headD []
        let cells := (List.range first.length).map fun i ↦
          (rawAt (instances.headD []) first i, column streams i)
        match observedItems labels cells [] with
        | none => none
        | some (items, slots) =>
            if slots.length ≠ labels.length then none else some ⟨name, items, labels⟩

/-! ## Families with a repeated group -/

/-- The fields of `RepeatSkeleton`. -/
structure RepeatTemplate where
  name : String
  head : List SkelItem
  group : List SkelItem
  suffix : List SkelItem
  minRepeats : Nat
  paramOrder : List String
  groupParams : List String
deriving DecidableEq, Repr

/-- The fields of each repeat, every one in a scope of its own. -/
def matchRepeats (group : List SkelItem) (groupParams : List String) : Nat →
    List Instruction → Option (List Field)
  | 0, _ => some []
  | repeats + 1, insts =>
      match matchItems group (insts.take group.length) [] with
      | none => none
      | some values =>
          (matchRepeats group groupParams repeats (insts.drop group.length)).map
            (fieldsInOrder groupParams values ++ ·)

/-- `RepeatSkeleton::match_script`. -/
def RepeatTemplate.matchScript (t : RepeatTemplate) (instructions : List Instruction) :
    Option (List Field) :=
  let fixed := t.head.length + t.suffix.length
  if instructions.length < fixed then none
  else
    let extra := instructions.length - fixed
    if t.group = [] ∨ extra % t.group.length ≠ 0 then none
    else
      let repeats := extra / t.group.length
      if repeats < t.minRepeats then none
      else
        match matchItems t.head instructions [] with
        | none => none
        | some values =>
            let rest := instructions.drop t.head.length
            match matchRepeats t.group t.groupParams repeats rest with
            | none => none
            | some repeatFields =>
                match matchItems t.suffix (rest.drop (repeats * t.group.length)) values with
                | none => none
                | some values => some (fieldsInOrder t.paramOrder values ++ repeatFields)

/-- A family as the registry keeps it. -/
def RepeatTemplate.registered (t : RepeatTemplate) : RepeatSkeleton :=
  ⟨t.name, t.matchScript⟩

/-- `same_shape`. -/
def sameShape (a b : Instruction) : Bool :=
  match pushValue a, pushValue b with
  | some x, some y => x.length == y.length
  | none, none => a.opcode == b.opcode
  | _, _ => false

/-- How far two streams have one shape. -/
def commonShape : List Instruction → List Instruction → Nat
  | a :: as, b :: bs => if sameShape a b then commonShape as bs + 1 else 0
  | _, _ => 0

/-- The leftmost position that a group may be turned to. -/
def rotateLeft (a0 : List Instruction) (g : Nat) : Nat → Nat
  | 0 => 0
  | p + 1 =>
      match a0[p]?, a0[p + g]? with
      | some x, some y => if sameShape x y then rotateLeft a0 g p else p + 1
      | _, _ => p + 1

/-- The items of the group: every push is a slot of its own. -/
def groupItems : List Instruction → List String → Option (List SkelItem)
  | [], labels => if labels = [] then some [] else none
  | inst :: insts, labels =>
      if isPush inst then
        match labels with
        | [] => none
        | label :: labels => (groupItems insts labels).map (.slot label :: ·)
      else (groupItems insts labels).map (.op inst.opcode :: ·)

/-- `RepeatSkeleton::derive`. -/
def RepeatTemplate.derive (name : String) (long short : List Bytes)
    (labels groupLabels : List String) : Option RepeatTemplate :=
  if long.length < 2 ∨ short = [] then none
  else
    match parseInstances long, parseInstances short with
    | some la, some lb =>
        let a0 := la.headD []
        let b0 := lb.headD []
        let g := a0.length - b0.length
        if a0.length ≤ b0.length then none
        else
          let p := commonShape a0 b0
          let s := commonShape a0.reverse (b0.reverse.take (b0.length - p))
          if a0.length - p - s < g then none
          else
            let p := rotateLeft a0 g (a0.length - s - g)
            if b0.length < p + s then none
            else
              let extra := b0.length - (p + s)
              if extra % g ≠ 0 then none
              else
                let cell := fun ia ib ↦
                  (rawAt (long.headD []) a0 ia, column la ia ++ column lb ib)
                match observedItems labels ((List.range p).map fun i ↦ cell i i) [] with
                | none => none
                | some (head, slots) =>
                    match observedItems labels ((List.range s).map fun j ↦
                        cell (a0.length - s + j) (b0.length - s + j)) slots with
                    | none => none
                    | some (suffix, slots) =>
                        if slots.length ≠ labels.length then none
                        else
                          match groupItems ((a0.drop p).take g) groupLabels with
                          | none => none
                          | some group =>
                              let t : RepeatTemplate :=
                                { name, head, group, suffix, minRepeats := extra / g,
                                  paramOrder := labels,
                                  groupParams := groupLabels.eraseDups }
                              if (long ++ short).all fun bytes ↦
                                  (t.matchScript (disassemble bytes).1).isSome then some t
                              else none
    | _, _ => none

/-! ## What a position tells of every instance -/

/-- An item, as what it says of the instructions at its position. -/
def ObservedAs (labels : List String) (slots : List (List Bytes))
    (cell : Bytes × List Instruction) : SkelItem → Prop
  | .op opcode => (∀ x ∈ cell.2, isPush x = false ∧ x.opcode = opcode) ∧ cell.2 ≠ []
  | .constPush value raw => raw = cell.1 ∧ ∀ x ∈ cell.2, pushValue x = some value
  | .slot label => ∃ (slot : Nat) (vector : List Bytes), slots[slot]? = some vector ∧
      labels[slot]? = some label ∧ cell.2.map pushValue = vector.map some

theorem ObservedAs.mono {labels : List String} {slots slots' : List (List Bytes)}
    {cell : Bytes × List Instruction} {item : SkelItem} (h : ObservedAs labels slots cell item)
    (hpre : slots <+: slots') : ObservedAs labels slots' cell item := by
  cases item with
  | op opcode => exact h
  | constPush value raw => exact h
  | slot label =>
      obtain ⟨slot, vector, hslot, hrest⟩ := h
      obtain ⟨more, rfl⟩ := hpre
      obtain ⟨hlt, -⟩ := List.getElem?_eq_some_iff.mp hslot
      exact ⟨slot, vector, (List.getElem?_append_left hlt).trans hslot, hrest⟩

theorem mapM_eq_some_map {column : List Instruction} {vector : List Bytes}
    (h : column.mapM pushValue = some vector) : column.map pushValue = vector.map some := by
  induction column generalizing vector with
  | nil =>
      obtain rfl := Option.some.inj h
      rfl
  | cons x column ih =>
      rw [List.mapM_cons] at h
      obtain ⟨v, hv, h⟩ := Option.bind_eq_some_iff.mp h
      obtain ⟨rest, hrest, h⟩ := Option.bind_eq_some_iff.mp h
      obtain rfl := Option.some.inj h
      rw [List.map_cons, List.map_cons, hv, ih hrest]

theorem observedItem_eq_some {labels : List String} {raw : Bytes} {column : List Instruction}
    {slots slots' : List (List Bytes)} {item : SkelItem}
    (h : observedItem labels raw column slots = some (item, slots')) :
    slots <+: slots' ∧ ObservedAs labels slots' (raw, column) item := by
  unfold observedItem at h
  split at h
  · cases h
  · rename_i inst tail
    split at h
    · split at h
      · cases h
      · rename_i hsame
        obtain ⟨rfl, rfl⟩ := Prod.mk.inj (Option.some.inj h)
        refine ⟨List.prefix_refl _, fun x hx ↦ ?_, List.cons_ne_nil _ _⟩
        simp only [Bool.not_eq_true, List.any_eq_false, Bool.or_eq_true, bne_iff_ne, not_or,
          not_not] at hsame
        exact ⟨by simpa using (hsame x hx).1, (hsame x hx).2⟩
    · split at h
      · cases h
      · rename_i vector hvector
        have hmap := mapM_eq_some_map hvector
        split at h
        · rename_i hall
          obtain ⟨rfl, rfl⟩ := Prod.mk.inj (Option.some.inj h)
          refine ⟨List.prefix_refl _, rfl, fun x hx ↦ ?_⟩
          have hmem : pushValue x ∈ vector.map some := hmap ▸ List.mem_map_of_mem hx
          obtain ⟨v, hv, hxv⟩ := List.mem_map.mp hmem
          have heq := List.all_eq_true.mp hall v hv
          rw [← hxv, of_decide_eq_true heq]
        · split at h
          · rename_i slot hslot
            obtain ⟨label, hlabel, hout⟩ := Option.map_eq_some_iff.mp h
            obtain ⟨rfl, rfl⟩ := Prod.mk.inj hout
            obtain ⟨hlt, hvalue, -⟩ := List.findIdx?_eq_some_iff_getElem.mp hslot
            refine ⟨List.prefix_refl _, slot, vector, ?_, hlabel, hmap⟩
            rw [List.getElem?_eq_getElem hlt, of_decide_eq_true hvalue]
          · obtain ⟨label, hlabel, hout⟩ := Option.map_eq_some_iff.mp h
            obtain ⟨rfl, rfl⟩ := Prod.mk.inj hout
            exact ⟨List.prefix_append _ _, slots.length, vector, by simp, hlabel, hmap⟩

theorem observedItems_eq_some {labels : List String} {cells : List (Bytes × List Instruction)}
    {slots slots' : List (List Bytes)} {items : List SkelItem}
    (h : observedItems labels cells slots = some (items, slots')) :
    slots <+: slots' ∧ List.Forall₂ (ObservedAs labels slots') cells items := by
  induction cells generalizing slots items with
  | nil =>
      obtain ⟨rfl, rfl⟩ := Prod.mk.inj (Option.some.inj h)
      exact ⟨List.prefix_refl _, .nil⟩
  | cons cell cells ih =>
      obtain ⟨raw, column⟩ := cell
      rw [observedItems] at h
      split at h
      · cases h
      · rename_i item mid hitem
        obtain ⟨⟨items, slots'⟩, hrest, hout⟩ := Option.map_eq_some_iff.mp h
        obtain ⟨rfl, rfl⟩ := Prod.mk.inj hout
        obtain ⟨hpre, hobserved⟩ := observedItem_eq_some hitem
        obtain ⟨hpre', hrest'⟩ := ih hrest
        exact ⟨hpre.trans hpre', .cons (hobserved.mono hpre') hrest'⟩

/-! ## The instances match -/

theorem parseInstances_eq_some {instances : List Bytes} {streams : List (List Instruction)}
    (h : parseInstances instances = some streams) :
    streams = instances.map (fun bytes ↦ (disassemble bytes).1) ∧
      (∀ bytes ∈ instances, (disassemble bytes).2 = false) ∧
        ∀ s ∈ streams, s.length = (streams.headD []).length := by
  unfold parseInstances at h
  dsimp only at h
  split at h
  · cases h
  · rename_i hguard
    obtain rfl := Option.some.inj h
    simp only [Bool.or_eq_true, List.any_eq_true, not_or, not_exists, not_and, Bool.not_eq_true,
      bne_iff_ne, ne_eq, not_not] at hguard
    exact ⟨rfl, hguard.1, hguard.2⟩

theorem mem_slotData {items : List SkelItem} {insts : List Instruction} {label : String}
    {v : Bytes} : (label, v) ∈ slotData items insts ↔ ∃ (i : Nat) (inst : Instruction),
      items[i]? = some (.slot label) ∧ insts[i]? = some inst ∧ pushValue inst = some v := by
  induction items generalizing insts with
  | nil => simp [slotData]
  | cons item items ih =>
      cases insts with
      | nil =>
          cases item with
          | op opcode => simp [slotData]
          | constPush value raw => simp [slotData]
          | slot label' => simp [slotData]
      | cons inst insts =>
          -- a position is the first, or one of the rest
          have hsplit : (∃ (i : Nat) (x : Instruction), (item :: items)[i]? = some (.slot label) ∧
              (inst :: insts)[i]? = some x ∧ pushValue x = some v) ↔
              (item = .slot label ∧ pushValue inst = some v) ∨
                (label, v) ∈ slotData items insts := by
            rw [ih]
            constructor
            · rintro ⟨i, x, hitem, hx, hv⟩
              cases i with
              | zero =>
                  obtain rfl := Option.some.inj hx
                  exact .inl ⟨Option.some.inj hitem, hv⟩
              | succ i => exact .inr ⟨i, x, hitem, hx, hv⟩
            · rintro (⟨rfl, hv⟩ | ⟨i, x, hitem, hx, hv⟩)
              · exact ⟨0, inst, rfl, rfl, hv⟩
              · exact ⟨i + 1, x, hitem, hx, hv⟩
          rw [hsplit]
          cases item with
          | op opcode => simp [slotData]
          | constPush value raw => simp [slotData]
          | slot label' =>
              cases hvalue : pushValue inst with
              | none => simp [slotData, hvalue]
              | some value =>
                  simp only [slotData, hvalue, List.mem_cons, Prod.mk.injEq, SkelItem.slot.injEq,
                    Option.some.injEq]
                  constructor
                  · rintro (⟨rfl, rfl⟩ | hmem)
                    · exact .inl ⟨rfl, rfl⟩
                    · exact .inr hmem
                  · rintro (⟨rfl, rfl⟩ | hmem)
                    · exact .inl ⟨rfl, rfl⟩
                    · exact .inr hmem

theorem mem_column {streams : List (List Instruction)} {s : List Instruction} (hs : s ∈ streams)
    {i : Nat} {x : Instruction} (hx : s[i]? = some x) : x ∈ column streams i :=
  List.mem_filterMap.mpr ⟨s, hs, hx⟩

/-- Positions with one column of values push one value in each stream. -/
theorem column_value {streams : List (List Instruction)} {vector : List Bytes} {i j : Nat}
    (hi : (column streams i).map pushValue = vector.map some)
    (hj : (column streams j).map pushValue = vector.map some)
    (hleni : ∀ s ∈ streams, i < s.length) (hlenj : ∀ s ∈ streams, j < s.length)
    {s : List Instruction} (hs : s ∈ streams) :
    (s[i]?).bind pushValue = (s[j]?).bind pushValue := by
  have hcolumn : ∀ k, (∀ s ∈ streams, k < s.length) →
      (column streams k).map pushValue = streams.map fun s ↦ (s[k]?).bind pushValue := by
    intro k hk
    clear hi hj hs hleni hlenj
    induction streams with
    | nil => rfl
    | cons t streams ih =>
        obtain ⟨x, ht⟩ : ∃ x, t[k]? = some x :=
          ⟨_, List.getElem?_eq_getElem (hk t List.mem_cons_self)⟩
        have hcons : column (t :: streams) k = x :: column streams k := List.filterMap_cons_some ht
        rw [hcons, List.map_cons, ih fun s hs ↦ hk s (List.mem_cons_of_mem _ hs), List.map_cons,
          ht, Option.bind_some]
  rw [hcolumn i hleni, ← hj, hcolumn j hlenj] at hi
  exact List.map_inj_left.mp hi s hs

theorem forall₂_range {α β : Type} {R : α → β → Prop} {f : Nat → α} {n : Nat} {l : List β}
    (h : List.Forall₂ R ((List.range n).map f) l) :
    l.length = n ∧ ∀ i b, l[i]? = some b → R (f i) b := by
  have hlen : l.length = n := by rw [← h.length_eq, List.length_map, List.length_range]
  refine ⟨hlen, fun i b hb ↦ ?_⟩
  obtain ⟨hlt, rfl⟩ := List.getElem?_eq_some_iff.mp hb
  have hi := (List.forall₂_iff_get.mp h).2 i (by
    rw [List.length_map, List.length_range]
    omega) hlt
  simpa using hi

/-- A skeleton derived from instances emits what it matches, and matches each instance
exactly when the instance pushes one value for each label, as it does where the labels
are distinct. -/
structure ObservedLaw (sk : Skeleton) (instances : List Bytes) (labels : List String) : Prop where
  emits : sk.Emits
  each : ∀ x ∈ instances, sk.Accepts x ↔ sk.AgreesWith x
  named : labels.Nodup → ∀ x ∈ instances, sk.Accepts x

theorem observed_admits {labels : List String} {slots : List (List Bytes)}
    {streams : List (List Instruction)} {raws : Nat → Bytes} {items : List SkelItem} {n : Nat}
    (hlen : items.length = n) (hobserved : ∀ i item, items[i]? = some item →
      ObservedAs labels slots (raws i, column streams i) item)
    {s : List Instruction} (hs : s ∈ streams) (hslen : s.length = n) :
    List.Forall₂ (fun item inst ↦ item.Admits inst) items s := by
  refine List.forall₂_iff_get.mpr ⟨hlen.trans hslen.symm, fun i hi hi' ↦ ?_⟩
  have hitem := hobserved i _ (List.getElem?_eq_getElem hi)
  have hmem := mem_column hs (List.getElem?_eq_getElem hi')
  simp only [List.get_eq_getElem]
  cases hcase : items[i] with
  | op opcode =>
      rw [hcase] at hitem
      exact hitem.1 _ hmem
  | constPush value raw =>
      rw [hcase] at hitem
      exact hitem.2 _ hmem
  | slot label =>
      rw [hcase] at hitem
      obtain ⟨slot, vector, -, -, hvector⟩ := hitem
      have hvalue : pushValue s[i] ∈ vector.map some := hvector ▸ List.mem_map_of_mem hmem
      obtain ⟨v, -, hv⟩ := List.mem_map.mp hvalue
      exact ⟨v, hv.symm⟩

theorem observed_agrees {labels : List String} {slots : List (List Bytes)}
    {streams : List (List Instruction)} {raws : Nat → Bytes} {items : List SkelItem} {n : Nat}
    (hlen : items.length = n) (hobserved : ∀ i item, items[i]? = some item →
      ObservedAs labels slots (raws i, column streams i) item)
    (hslen : ∀ s ∈ streams, s.length = n) (hnodup : labels.Nodup)
    {s : List Instruction} (hs : s ∈ streams) : Agree items s := by
  intro label u v hu hv
  obtain ⟨i, x, hitem, hx, hxu⟩ := mem_slotData.mp hu
  obtain ⟨j, y, hitem', hy, hyv⟩ := mem_slotData.mp hv
  obtain ⟨slot, vector, hslot, hlabel, hvector⟩ := hobserved i _ hitem
  obtain ⟨slot', vector', hslot', hlabel', hvector'⟩ := hobserved j _ hitem'
  -- one label is one slot, and one slot is one column of values
  obtain ⟨hlt, -⟩ := List.getElem?_eq_some_iff.mp hlabel
  obtain rfl : slot = slot' :=
    (List.getElem?_inj hlt hnodup).mp (hlabel.trans hlabel'.symm)
  rw [hslot, Option.some.injEq] at hslot'
  subst hslot'
  have hi := (List.getElem?_eq_some_iff.mp hitem).1
  have hj := (List.getElem?_eq_some_iff.mp hitem').1
  have heq := column_value hvector hvector' (fun t ht ↦ by rw [hslen t ht]; omega)
    (fun t ht ↦ by rw [hslen t ht]; omega) hs
  rw [hx, hy, Option.bind_some, Option.bind_some, hxu, hyv] at heq
  exact Option.some.inj heq

theorem rawAt_push {bytes : Bytes} {i : Nat} {x : Instruction} {v : Bytes}
    (hx : (disassemble bytes).1[i]? = some x) (hv : pushValue x = some v) :
    ReadsAs (rawAt bytes (disassemble bytes).1 i) fun inst ↦ pushValue inst = some v := by
  have hinst : ((spans bytes.length (disassemble bytes).1)[i]?).map (·.inst) = some x := by
    rw [← List.getElem?_map, spans_map_inst, hx]
  obtain ⟨span, hspan, rfl⟩ := Option.map_eq_some_iff.mp hinst
  rw [rawAt, hspan]
  exact raw_push bytes span (List.mem_of_getElem? hspan) v hv

theorem deriveObserved_law {name : String} {instances : List Bytes} {labels : List String}
    {sk : Skeleton} (h : Skeleton.deriveObserved name instances labels = some sk) :
    ObservedLaw sk instances labels := by
  unfold Skeleton.deriveObserved at h
  split at h
  · cases h
  · rename_i hcount
    split at h
    · cases h
    · rename_i streams hparse
      obtain ⟨hstreams, hwhole, hslen⟩ := parseInstances_eq_some hparse
      dsimp only at h
      split at h
      · cases h
      · rename_i items slots hitems
        split at h
        · cases h
        · obtain rfl := Option.some.inj h
          obtain ⟨-, hforall⟩ := observedItems_eq_some hitems
          obtain ⟨hlen, hobserved⟩ := forall₂_range hforall
          obtain ⟨first, others, rfl⟩ := List.exists_cons_of_length_pos
            (by omega : 0 < instances.length)
          have hmem : ∀ x ∈ first :: others, (disassemble x).1 ∈ streams := fun x hx ↦ by
            rw [hstreams]
            exact List.mem_map_of_mem hx
          have hhead : streams.headD [] = (disassemble first).1 := by
            rw [hstreams]
            rfl
          have hiff : ∀ x ∈ first :: others,
              Skeleton.Accepts ⟨name, items, labels⟩ x ↔
                Skeleton.AgreesWith ⟨name, items, labels⟩ x := fun x hx ↦
            accepts_iff_agrees (hwhole x hx)
              (observed_admits hlen hobserved (hmem x hx) (hslen _ (hmem x hx)))
          refine ⟨emits_of_sound fun item hitem ↦ ?_, hiff, fun hnodup x hx ↦
            (hiff x hx).mpr (observed_agrees hlen hobserved hslen hnodup (hmem x hx))⟩
          obtain ⟨i, hi⟩ := List.mem_iff_getElem?.mp hitem
          have hcell := hobserved i item hi
          cases item with
          | op opcode =>
              obtain ⟨hall, hne⟩ := hcell
              obtain ⟨x, hx⟩ := List.exists_mem_of_ne_nil _ hne
              obtain ⟨hpush, rfl⟩ := hall x hx
              exact op_sound hpush
          | constPush value raw =>
              obtain ⟨hraw, hall⟩ := hcell
              obtain rfl : raw = rawAt first (streams.headD []) i := hraw
              have hlt : i < (disassemble first).1.length := by
                rw [← hhead, ← hlen]
                exact (List.getElem?_eq_some_iff.mp hi).1
              have hget := List.getElem?_eq_getElem hlt
              have hvalue := hall _ (mem_column (hmem first List.mem_cons_self) hget)
              have hreads := rawAt_push hget hvalue
              rwa [← hhead] at hreads
          | slot label => trivial

/-! ## Families -/

theorem matchItems_take (items : List SkelItem) (insts : List Instruction)
    (values : SlotValues) :
    matchItems items insts values = matchItems items (insts.take items.length) values := by
  induction items generalizing insts values with
  | nil => cases insts <;> rfl
  | cons item items ih =>
      cases insts with
      | nil => rfl
      | cons inst insts =>
          rw [List.length_cons, List.take_succ_cons, matchItems, matchItems]
          exact Option.bind_congr fun mid _ ↦ ih insts mid

theorem matchItems_append {xs ys : List SkelItem} {as bs : List Instruction}
    (hlen : as.length = xs.length) (values : SlotValues) :
    matchItems (xs ++ ys) (as ++ bs) values =
      (matchItems xs as values).bind (matchItems ys bs) := by
  induction xs generalizing as values with
  | nil =>
      obtain rfl := List.length_eq_zero_iff.mp hlen
      rfl
  | cons x xs ih =>
      obtain ⟨a, as, rfl⟩ := List.exists_cons_of_length_eq_add_one hlen
      rw [List.cons_append, List.cons_append, matchItems, matchItems, Option.bind_assoc]
      exact Option.bind_congr fun mid _ ↦ ih (Nat.succ.inj hlen) mid

theorem agree_of_matchItems {items : List SkelItem} {insts : List Instruction}
    {values : SlotValues} (hlen : insts.length = items.length)
    (h : matchItems items insts [] = some values) : Agree items insts := by
  rw [matchItems_of_admits (admits_of_matchItems hlen h)] at h
  exact (bindAll_isSome functional_nil).mp (by rw [h]; rfl)

theorem matchRepeats_agree {group : List SkelItem} {groupParams : List String} {repeats : Nat}
    {insts : List Instruction} {fields : List Field}
    (hlen : repeats * group.length ≤ insts.length)
    (h : matchRepeats group groupParams repeats insts = some fields) :
    ∀ r < repeats, Agree group ((insts.drop (r * group.length)).take group.length) := by
  induction repeats generalizing insts fields with
  | zero => exact fun r hr ↦ absurd hr (Nat.not_lt_zero r)
  | succ repeats ih =>
      rw [Nat.succ_mul] at hlen
      rw [matchRepeats] at h
      split at h
      · cases h
      · rename_i values hvalues
        obtain ⟨rest, hrest, -⟩ := Option.map_eq_some_iff.mp h
        have hagree := ih (by rw [List.length_drop]; omega) hrest
        intro r hr
        cases r with
        | zero =>
            rw [Nat.zero_mul, List.drop_zero]
            exact agree_of_matchItems (List.length_take_of_le (by omega)) hvalues
        | succ r =>
            have hnext := hagree r (by omega)
            rwa [List.drop_drop, Nat.add_comm group.length, ← Nat.succ_mul] at hnext

/-- One value for each label of the fixed parts, and of each repeat by itself. -/
def RepeatTemplate.AgreesOn (t : RepeatTemplate) (insts : List Instruction) : Prop :=
  ∃ repeats, insts.length = t.head.length + repeats * t.group.length + t.suffix.length ∧
    Agree (t.head ++ t.suffix) (insts.take t.head.length ++
      insts.drop (t.head.length + repeats * t.group.length)) ∧
    ∀ r < repeats, Agree t.group
      ((insts.drop (t.head.length + r * t.group.length)).take t.group.length)

theorem repeat_agrees {t : RepeatTemplate} {insts : List Instruction} {fields : List Field}
    (h : t.matchScript insts = some fields) : t.AgreesOn insts := by
  unfold RepeatTemplate.matchScript at h
  dsimp only at h
  split at h
  · cases h
  · rename_i hfixed
    split at h
    · cases h
    · rename_i hextra
      rw [not_or, not_not] at hextra
      split at h
      · cases h
      · split at h
        · cases h
        · rename_i values hhead
          split at h
          · cases h
          · rename_i repeatFields hrepeats
            split at h
            · cases h
            · rename_i values' hsuffix
              have hmul : (insts.length - (t.head.length + t.suffix.length)) / t.group.length *
                  t.group.length = insts.length - (t.head.length + t.suffix.length) :=
                Nat.div_mul_cancel (Nat.dvd_of_mod_eq_zero hextra.2)
              rw [List.drop_drop, hmul] at hsuffix
              rw [matchItems_take] at hhead
              have hheadLen : (insts.take t.head.length).length = t.head.length :=
                List.length_take_of_le (by omega)
              refine ⟨_, by rw [hmul]; omega, ?_, fun r hr ↦ ?_⟩
              · rw [hmul]
                refine agree_of_matchItems ?_ (?_ : matchItems _ _ [] = some values')
                · simp only [List.length_append, List.length_take, List.length_drop]
                  omega
                · rw [matchItems_append hheadLen, hhead]
                  exact hsuffix
              · have hagree := matchRepeats_agree (by rw [hmul, List.length_drop]; omega)
                  hrepeats r hr
                rwa [List.drop_drop] at hagree

/-- A derived family has the name it is given, and matches every instance. -/
theorem repeatDerive_eq_some {name : String} {long short : List Bytes}
    {labels groupLabels : List String} {t : RepeatTemplate}
    (h : RepeatTemplate.derive name long short labels groupLabels = some t) :
    t.name = name ∧ ∀ x ∈ long ++ short, (disassemble x).2 = false ∧
      ∃ fields, t.matchScript (disassemble x).1 = some fields := by
  unfold RepeatTemplate.derive at h
  split at h
  · cases h
  · split at h
    · rename_i la lb hla hlb
      dsimp only at h
      split at h
      · cases h
      · split at h
        · cases h
        · split at h
          · cases h
          · split at h
            · cases h
            · split at h
              · cases h
              · split at h
                · cases h
                · split at h
                  · cases h
                  · split at h
                    · cases h
                    · split at h
                      · rename_i hall
                        obtain rfl := Option.some.inj h
                        refine ⟨rfl, fun x hx ↦ ?_⟩
                        refine ⟨?_, Option.isSome_iff_exists.mp (List.all_eq_true.mp hall x hx)⟩
                        rcases List.mem_append.mp hx with hlong | hshort
                        · exact (parseInstances_eq_some hla).2.1 x hlong
                        · exact (parseInstances_eq_some hlb).2.1 x hshort
                      · cases h
    · cases h

/-! ## The law of templates -/

/-- Templates match what they emit and what they were derived from, and nothing that
pushes two values for one label of a scope. -/
structure TemplateLaw : Prop where
  derived : ∀ name a b sentinels sk, Skeleton.derive name a b sentinels = some sk →
    DerivedLaw sk a b sentinels
  observed : ∀ name instances labels sk, Skeleton.deriveObserved name instances labels = some sk →
    ObservedLaw sk instances labels
  repeated : ∀ name long short labels groupLabels t,
    RepeatTemplate.derive name long short labels groupLabels = some t →
      ∀ x ∈ long ++ short, (disassemble x).2 = false ∧
        ∃ fields, t.matchScript (disassemble x).1 = some fields
  apart : ∀ (sk : Skeleton) insts label (i j : Nat) x y, sk.items[i]? = some (.slot label) →
    sk.items[j]? = some (.slot label) → insts[i]? = some x → insts[j]? = some y →
      pushValue x ≠ pushValue y → sk.matchScript insts = none
  apartRepeated : ∀ (t : RepeatTemplate) insts fields,
    t.matchScript insts = some fields → t.AgreesOn insts

theorem matchScript_apart {sk : Skeleton} {insts : List Instruction} {label : String} {i j : Nat}
    {x y : Instruction} (hi : sk.items[i]? = some (.slot label))
    (hj : sk.items[j]? = some (.slot label)) (hx : insts[i]? = some x) (hy : insts[j]? = some y)
    (hne : pushValue x ≠ pushValue y) : sk.matchScript insts = none := by
  refine Option.eq_none_iff_forall_not_mem.mpr fun fields hfields ↦ hne ?_
  obtain ⟨hadmits, hagree, -⟩ := matchScript_eq_some.mp hfields
  have hpush : ∀ (k : Nat) (inst : Instruction), sk.items[k]? = some (.slot label) →
      insts[k]? = some inst → ∃ v, pushValue inst = some v := by
    intro k inst hitem hinst
    obtain ⟨hlt, hget⟩ := List.getElem?_eq_some_iff.mp hitem
    obtain ⟨hlt', rfl⟩ := List.getElem?_eq_some_iff.mp hinst
    have hslot := (List.forall₂_iff_get.mp hadmits).2 k hlt hlt'
    simp only [List.get_eq_getElem, hget] at hslot
    exact hslot
  obtain ⟨u, hu⟩ := hpush i x hi hx
  obtain ⟨v, hv⟩ := hpush j y hj hy
  rw [hu, hv, hagree label u v (mem_slotData.mpr ⟨i, x, hi, hx, hu⟩)
    (mem_slotData.mpr ⟨j, y, hj, hy, hv⟩)]

theorem template_law : TemplateLaw where
  derived _ _ _ _ _ h := derive_law h
  observed _ _ _ _ h := deriveObserved_law h
  repeated _ _ _ _ _ _ h := (repeatDerive_eq_some h).2
  apart _ _ _ _ _ _ _ hi hj hx hy hne := matchScript_apart hi hj hx hy hne
  apartRepeated _ _ _ h := repeat_agrees h

/-- What the disassembler reads as pushed has a length of four bytes. -/
theorem Reads.fits {offset : Nat} {bytes : Bytes} {insts : List Instruction} {truncated : Bool}
    (h : Reads offset bytes insts truncated) :
    ∀ inst ∈ insts, ∀ v, pushValue inst = some v → Fits32 v := by
  have hbare : ∀ {offset : Nat} {opcode : UInt8} {v : Bytes},
      pushValue ⟨offset, opcode, none⟩ = some v → Fits32 v := by
    intro offset opcode v hv
    rcases smallOpcode_cases (pushValue_bare hv) with ⟨rfl, -⟩ | ⟨rfl, -⟩ | ⟨b, rfl, -⟩
    · exact Nat.two_pow_pos 32
    · exact Nat.one_lt_two_pow (by decide)
    · exact Nat.one_lt_two_pow (by decide)
  induction h with
  | done => exact fun _ hinst ↦ absurd hinst List.not_mem_nil
  | op hlen _ ih => exact List.forall_mem_cons.mpr ⟨fun v hv ↦ hbare hv, ih⟩
  | push hlen _ ih =>
      refine List.forall_mem_cons.mpr ⟨fun v hv ↦ ?_, ih⟩
      obtain rfl := Option.some.inj hv
      exact hlen.lt_two_pow
  | cut hlen hcut =>
      exact List.forall_mem_cons.mpr ⟨fun v hv ↦ hbare hv,
        fun _ hinst ↦ absurd hinst List.not_mem_nil⟩

/-- A second build that pushes two values where the first pushes one does not match,
nor do instances whose slots share a label; and a value too long for a push is not read
back. -/
theorem template_lost :
    (∃ sk, Skeleton.derive "x" [0x01, 0xaa, 0x01, 0xaa] [0x01, 0xbb, 0x01, 0xcc] [("k", [0xaa])] =
      some sk ∧ sk.matchScript (disassemble [0x01, 0xbb, 0x01, 0xcc]).1 = none) ∧
    (∃ sk, Skeleton.deriveObserved "x" [[0x01, 0xaa, 0x01, 0xbb], [0x01, 0xbb, 0x01, 0xaa]]
      ["k", "k"] = some sk ∧ sk.matchScript (disassemble [0x01, 0xaa, 0x01, 0xbb]).1 = none) ∧
    ∃ sk, Skeleton.derive "x" [0x01, 0xaa] [0x01, 0xbb] [("k", [0xaa])] = some sk ∧
      ∃ script, sk.emit [("k", List.replicate (2 ^ 32) 0)] = some script ∧
        sk.matchScript (disassemble script).1 ≠ some [⟨"k", List.replicate (2 ^ 32) 0⟩] := by
  refine ⟨⟨⟨"x", [.slot "k", .slot "k"], ["k"]⟩, by decide +kernel, by decide +kernel⟩,
    ⟨⟨"x", [.slot "k", .slot "k"], ["k", "k"]⟩, by decide +kernel, by decide +kernel⟩,
    ⟨"x", [.slot "k"], ["k"]⟩, by decide +kernel, encodePush (List.replicate (2 ^ 32) 0) ++ [],
    rfl, fun h ↦ ?_⟩
  obtain ⟨-, -, hfields⟩ := matchScript_eq_some.mp h
  have hmem : Field.mk "k" (List.replicate (2 ^ 32) 0) ∈ fieldsInOrder ["k"] (slotData
      [.slot "k"] (disassemble (encodePush (List.replicate (2 ^ 32) 0) ++ [])).1) := by
    rw [← hfields]
    exact List.mem_singleton_self _
  obtain ⟨label, -, hlabel⟩ := List.mem_filterMap.mp hmem
  obtain ⟨⟨k, v⟩, hfind, heq⟩ := Option.map_eq_some_iff.mp hlabel
  obtain ⟨i, inst, -, hinst, hv⟩ := mem_slotData.mp (List.mem_of_find?_eq_some hfind)
  have hfits := (disassemble_reads _).fits inst (List.mem_of_getElem? hinst) v hv
  have hvalue : v = List.replicate (2 ^ 32) 0 := (Field.mk.inj heq).2
  rw [hvalue, Fits32, List.length_replicate] at hfits
  exact lt_irrefl _ hfits

end Kascov
