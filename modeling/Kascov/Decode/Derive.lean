import Kascov.Decode.Match
import Kascov.Kcc1.Push

/-!
# Deriving and emitting

A skeleton is derived from two builds of a contract: what the builds share is fixed,
and where they differ is a slot, named by the sentinel that the first build pushes
there.  Emitting fills the slots with new values, and the skeleton matches what it
emits.
-/

namespace Kascov

open Bindings

/-- The bytes of a span. -/
def InstructionSpan.raw (script : Bytes) (span : InstructionSpan) : Bytes :=
  byteRange script span.start span.stop

/-- One turn of the loop of `derive`. -/
def deriveItem (a : Bytes) (sentinels : List (String × Bytes)) (x : InstructionSpan)
    (y : Instruction) : Option SkelItem :=
  match isPush x.inst, isPush y with
  | false, false => if x.inst.opcode = y.opcode then some (.op x.inst.opcode) else none
  | true, true =>
      match pushValue x.inst, pushValue y with
      | some vx, some vy =>
          if vx = vy then some (.constPush vx (x.raw a))
          else (sentinels.find? (·.2 = vx)).map fun e ↦ .slot e.1
      | _, _ => none
  | _, _ => none

/-- The loop of `derive`. -/
def deriveItems (a : Bytes) (sentinels : List (String × Bytes)) :
    List InstructionSpan → List Instruction → Option (List SkelItem)
  | x :: xs, y :: ys =>
      match deriveItem a sentinels x y with
      | none => none
      | some item => (deriveItems a sentinels xs ys).map (item :: ·)
  | _, _ => some []

/-- `Skeleton::derive`. -/
def Skeleton.derive (name : String) (a b : Bytes) (sentinels : List (String × Bytes)) :
    Option Skeleton :=
  let (ia, ta) := disassemble a
  let (ib, tb) := disassemble b
  if ta || tb || ia.length ≠ ib.length then none
  else (deriveItems a sentinels (spans a.length ia) ib).map fun items ↦
    ⟨name, items, sentinels.map (·.1)⟩

/-- One turn of the loop of `emit`. -/
def emitItem (args : List (String × Bytes)) : SkelItem → Option Bytes
  | .op opcode => some [opcode]
  | .constPush _ raw => some raw
  | .slot label => (args.find? (·.1 = label)).map fun e ↦ encodePush e.2

/-- The loop of `emit`. -/
def emitItems (args : List (String × Bytes)) : List SkelItem → Option Bytes
  | [] => some []
  | item :: items =>
      match emitItem args item with
      | none => none
      | some out => (emitItems args items).map (out ++ ·)

/-- `Skeleton::emit`. -/
def Skeleton.emit (sk : Skeleton) (args : List (String × Bytes)) : Option Bytes :=
  emitItems args sk.items

/-! ## Bytes that read as one instruction -/

/-- Wherever they stand, some bytes read as one instruction of a kind. -/
def ReadsAs (raw : Bytes) (kind : Instruction → Prop) : Prop :=
  ∀ offset rest insts truncated, Reads (offset + raw.length) rest insts truncated →
    ∃ inst, kind inst ∧ Reads offset (raw ++ rest) (inst :: insts) truncated

/-- The bytes that an item is emitted as read as an instruction it admits. -/
def SkelItem.Sound : SkelItem → Prop
  | .op opcode => ReadsAs [opcode] (SkelItem.op opcode).Admits
  | .constPush value raw => ReadsAs raw (SkelItem.constPush value raw).Admits
  | .slot _ => True

/-- An opcode that declares a length is a push. -/
theorem isPush_of_declares (inst : Instruction) {header : Bytes} {n : Nat}
    (h : Declares inst.opcode header n) : isPush inst = true := by
  have hle : inst.opcode ≤ 0x4f :=
    UInt8.le_iff_toNat_le.mpr (h.opcode_bounds.2.trans (by decide))
  simp [isPush, hle]

theorem op_sound {inst : Instruction} (h : isPush inst = false) :
    (SkelItem.op inst.opcode).Sound := by
  intro offset rest insts truncated htail
  have hpush : isPush ⟨offset, inst.opcode, none⟩ = false := h
  refine ⟨⟨offset, inst.opcode, none⟩, ⟨hpush, rfl⟩, .op ?_ htail⟩
  cases hlen : dataLength inst.opcode rest with
  | none => exact hlen
  | some p =>
      obtain ⟨header, -, hdecl⟩ := dataLength_eq_some.mp hlen
      rw [isPush_of_declares inst hdecl] at h
      cases h

/-- A push without data is a push by a numeric opcode. -/
theorem pushValue_bare {offset : Nat} {opcode : UInt8} {v : Bytes}
    (h : pushValue ⟨offset, opcode, none⟩ = some v) : smallOpcode v = some opcode := by
  simp only [pushValue] at h
  split at h
  · rename_i hop
    rw [← Option.some.inj h, hop]
    rfl
  · split at h
    · rename_i hop
      rw [← Option.some.inj h, hop]
      rfl
    · split at h
      · rename_i hop
        rw [← Option.some.inj h]
        have hlow : 0x51 ≤ opcode.toNat := UInt8.le_iff_toNat_le.mp hop.1
        have hhigh : opcode.toNat ≤ 0x60 := UInt8.le_iff_toNat_le.mp hop.2
        have hnat : (opcode - 0x50).toNat = opcode.toNat - 0x50 := by
          rw [UInt8.toNat_sub_of_le _ _ (UInt8.le_iff_toNat_le.mpr (by
            change 0x50 ≤ opcode.toNat
            omega))]
          rfl
        have hne : opcode - 0x50 ≠ 0x81 := by
          intro heq
          have := congrArg UInt8.toNat heq
          rw [hnat] at this
          change opcode.toNat - 0x50 = 0x81 at this
          omega
        have hrange : 1 ≤ opcode - 0x50 ∧ opcode - 0x50 ≤ 16 := by
          rw [UInt8.le_iff_toNat_le, UInt8.le_iff_toNat_le, hnat]
          change 1 ≤ opcode.toNat - 0x50 ∧ opcode.toNat - 0x50 ≤ 16
          omega
        rw [smallOpcode, if_neg hne, if_pos hrange, UInt8.add_comm, UInt8.sub_add_cancel]
      · cases h

/-- What holds of each kind of instruction with its bytes holds of the spans of a
script. -/
theorem Reads.forall_spans {law : Instruction → Bytes → Prop}
    (hop : ∀ offset opcode rest, dataLength opcode rest = none →
      law ⟨offset, opcode, none⟩ [opcode])
    (hpush : ∀ offset opcode header data, Declares opcode header data.length →
      law ⟨offset, opcode, some data⟩ (opcode :: (header ++ data)))
    (hcut : ∀ offset opcode rest p, dataLength opcode rest = some p →
      law ⟨offset, opcode, none⟩ (opcode :: rest))
    {offset : Nat} {bytes : Bytes} {insts : List Instruction} {truncated : Bool}
    (h : Reads offset bytes insts truncated) {start : Bytes} (hstart : start.length = offset) :
    ∀ span ∈ spans (offset + bytes.length) insts, law span.inst (span.raw (start ++ bytes)) := by
  induction h generalizing start with
  | done => exact fun _ h ↦ absurd h List.not_mem_nil
  | @op offset opcode rest insts truncated hlen tail ih =>
      subst hstart
      have hend : start.length + 1 + rest.length = start.length + (opcode :: rest).length := by
        rw [List.length_cons]
        omega
      have hnext := tail.head_offset
      have htail := @ih (start ++ [opcode]) (by rw [List.length_append]; rfl)
      rw [hend] at htail hnext
      rw [List.append_assoc, List.singleton_append] at htail
      rw [spans, hnext]
      refine List.forall_mem_cons.mpr ⟨?_, htail⟩
      have hraw := byteRange_middle start [opcode] rest
      rw [List.length_singleton, List.singleton_append] at hraw
      rw [InstructionSpan.raw]
      dsimp only
      rw [hraw]
      exact hop _ _ _ hlen
  | @push offset opcode header data rest insts truncated hlen tail ih =>
      subst hstart
      have hlength : (opcode :: (header ++ data)).length = 1 + header.length + data.length := by
        rw [List.length_cons, List.length_append]
        omega
      have hend : start.length + (1 + header.length + data.length) + rest.length =
          start.length + (opcode :: (header ++ (data ++ rest))).length := by
        simp only [List.length_cons, List.length_append]
        omega
      have hnext := tail.head_offset
      have htail := @ih (start ++ opcode :: (header ++ data)) (by
        rw [List.length_append, hlength])
      rw [hend] at htail hnext
      rw [List.append_assoc, List.cons_append, List.append_assoc] at htail
      rw [spans, hnext]
      refine List.forall_mem_cons.mpr ⟨?_, htail⟩
      have hraw := byteRange_middle start (opcode :: (header ++ data)) rest
      rw [List.cons_append, List.append_assoc, hlength] at hraw
      rw [InstructionSpan.raw]
      dsimp only
      rw [hraw]
      exact hpush _ _ _ _ hlen
  | @cut offset opcode rest data len hlen hcut' =>
      subst hstart
      refine List.forall_mem_cons.mpr ⟨?_, fun _ h ↦ absurd h List.not_mem_nil⟩
      have hraw := byteRange_middle start (opcode :: rest) []
      rw [List.append_nil] at hraw
      rw [InstructionSpan.raw]
      dsimp only [List.head?_nil, Option.map_none, Option.getD_none]
      rw [hraw]
      exact hcut _ _ _ _ hlen

/-- The bytes of a push of a script read as a push of its value, wherever they
stand. -/
theorem raw_push (script : Bytes) :
    ∀ span ∈ spans script.length (disassemble script).1, ∀ v, pushValue span.inst = some v →
      ReadsAs (span.raw script) fun inst ↦ pushValue inst = some v := by
  have h := @Reads.forall_spans (fun inst raw ↦ ∀ v, pushValue inst = some v →
      ReadsAs raw fun inst ↦ pushValue inst = some v) ?_ ?_ ?_ _ _ _ _
    (disassemble_reads script) [] List.length_nil
  · rwa [Nat.zero_add, List.nil_append] at h
  · intro offset opcode rest _ v hv offset' rest' insts truncated htail
    exact ⟨⟨offset', opcode, none⟩, hv, .op (dataLength_small rest' (pushValue_bare hv)) htail⟩
  · intro offset opcode header data hlen v hv offset' rest' insts truncated htail
    have hlength : (opcode :: (header ++ data)).length = 1 + header.length + data.length := by
      rw [List.length_cons, List.length_append]
      omega
    rw [hlength] at htail
    refine ⟨⟨offset', opcode, some data⟩, hv, ?_⟩
    rw [List.cons_append, List.append_assoc]
    exact .push hlen htail
  · intro offset opcode rest p hlen v hv
    rw [dataLength_small rest (pushValue_bare hv)] at hlen
    cases hlen

/-- What is no push is one byte. -/
theorem raw_op (script : Bytes) :
    ∀ span ∈ spans script.length (disassemble script).1, isPush span.inst = false →
      span.raw script = [span.inst.opcode] := by
  have h := @Reads.forall_spans (fun inst raw ↦ isPush inst = false → raw = [inst.opcode])
    ?_ ?_ ?_ _ _ _ _ (disassemble_reads script) [] List.length_nil
  · rwa [Nat.zero_add, List.nil_append] at h
  · exact fun _ _ _ _ _ ↦ rfl
  · intro offset opcode header data hlen hnot
    rw [isPush_of_declares ⟨offset, opcode, some data⟩ hlen] at hnot
    cases hnot
  · intro offset opcode rest p hlen hnot
    obtain ⟨header, -, hdecl⟩ := dataLength_eq_some.mp hlen
    rw [isPush_of_declares ⟨offset, opcode, none⟩ hdecl] at hnot
    cases hnot

/-! ## Emission -/

/-- The values that an assignment gives the slots. -/
def slotArgs (args : List (String × Bytes)) (items : List SkelItem) : SlotValues :=
  (slotLabels items).filterMap fun label ↦ find args label

theorem slotArgs_functional (args : List (String × Bytes)) (items : List SkelItem) :
    Functional (slotArgs args items) := by
  intro k u v hu hv
  obtain ⟨label, -, hlabel⟩ := List.mem_filterMap.mp hu
  obtain ⟨label', -, hlabel'⟩ := List.mem_filterMap.mp hv
  obtain rfl := (find_eq_some hlabel).2
  obtain rfl := (find_eq_some hlabel').2
  rw [hlabel] at hlabel'
  exact (Prod.mk.inj (Option.some.inj hlabel')).2

/-- An emitted script reads as instructions that the items admit, with the values
assigned. -/
theorem emitItems_reads {args : List (String × Bytes)} {items : List SkelItem} {out : Bytes}
    (hsound : ∀ item ∈ items, item.Sound) (hfits : ∀ e ∈ args, Fits32 e.2)
    (h : emitItems args items = some out) (offset : Nat) {rest : Bytes}
    {tail : List Instruction} {truncated : Bool}
    (htail : Reads (offset + out.length) rest tail truncated) :
    ∃ insts, Reads offset (out ++ rest) (insts ++ tail) truncated ∧
      List.Forall₂ (fun item inst ↦ item.Admits inst) items insts ∧
        slotData items insts = slotArgs args items := by
  induction items generalizing out offset with
  | nil =>
      obtain rfl := Option.some.inj h
      exact ⟨[], htail, .nil, rfl⟩
  | cons item items ih =>
      rw [emitItems] at h
      split at h
      · cases h
      · rename_i first hfirst
        obtain ⟨last, hlast, rfl⟩ := Option.map_eq_some_iff.mp h
        rw [List.length_append, ← Nat.add_assoc] at htail
        obtain ⟨insts, hreads, hadmits, hdata⟩ := ih
          (fun item hitem ↦ hsound item (List.mem_cons_of_mem _ hitem)) hlast
          (offset + first.length) htail
        have hitem := hsound item List.mem_cons_self
        rw [List.append_assoc]
        cases item with
        | op opcode =>
            obtain rfl := Option.some.inj hfirst
            obtain ⟨inst, hinst, hread⟩ := hitem _ _ _ _ hreads
            exact ⟨inst :: insts, hread, .cons hinst hadmits, hdata⟩
        | constPush value raw =>
            obtain rfl := Option.some.inj hfirst
            obtain ⟨inst, hinst, hread⟩ := hitem _ _ _ _ hreads
            exact ⟨inst :: insts, hread, .cons hinst hadmits, hdata⟩
        | slot label =>
            obtain ⟨e, he, rfl⟩ := Option.map_eq_some_iff.mp hfirst
            have hvalue := pushValue_pushedInst offset e.2
            have hmem := List.mem_of_find?_eq_some he
            refine ⟨pushedInst offset e.2 :: insts, Reads.encodePush (hfits e hmem) hreads,
              .cons ⟨e.2, hvalue⟩ hadmits, ?_⟩
            have hentry : (label, e.2) = e := by rw [← (find_eq_some he).2]
            have hargs : slotArgs args (.slot label :: items) = e :: slotArgs args items :=
              List.filterMap_cons_some he
            rw [slotData, hvalue, hargs, hdata]
            exact congrArg (· :: slotArgs args items) hentry

/-- The fields that an assignment gives: those of the labels that are slots, in order. -/
def Skeleton.assigned (sk : Skeleton) (args : List (String × Bytes)) : List Field :=
  (sk.paramOrder.filter (· ∈ slotLabels sk.items)).filterMap fun label ↦
    (args.find? (·.1 = label)).map fun e ↦ ⟨label, e.2⟩

theorem find_slotArgs {args : List (String × Bytes)} {items : List SkelItem} {label : String} :
    find (slotArgs args items) label =
      if label ∈ slotLabels items then find args label else none := by
  unfold slotArgs
  split
  · rename_i hmem
    cases hfind : find args label with
    | none =>
        refine find_eq_none.mpr fun v hv ↦ ?_
        obtain ⟨label', -, hlabel'⟩ := List.mem_filterMap.mp hv
        obtain rfl := (find_eq_some hlabel').2
        rw [hfind] at hlabel'
        cases hlabel'
    | some e =>
        obtain ⟨hmem', rfl⟩ := find_eq_some hfind
        exact (slotArgs_functional args items).find_of_mem
          (List.mem_filterMap.mpr ⟨e.1, hmem, hfind⟩)
  · rename_i hmem
    refine find_eq_none.mpr fun v hv ↦ ?_
    obtain ⟨label', hlabel, hlabel'⟩ := List.mem_filterMap.mp hv
    obtain rfl := (find_eq_some hlabel').2
    exact hmem hlabel

theorem fieldsInOrder_slotArgs (sk : Skeleton) (args : List (String × Bytes)) :
    fieldsInOrder sk.paramOrder (slotArgs args sk.items) = sk.assigned args := by
  rw [fieldsInOrder, Skeleton.assigned, List.filterMap_filter]
  refine List.filterMap_congr fun label _ ↦ ?_
  have hfind := @find_slotArgs args sk.items label
  unfold find at hfind
  rw [hfind]
  by_cases hmem : label ∈ slotLabels sk.items
  · simp [hmem]
  · simp [hmem]

/-- The law of emission: what is emitted is a whole script, and it matches with the
values assigned; and an assignment of every slot is emitted. -/
structure Skeleton.Emits (sk : Skeleton) : Prop where
  matched : ∀ args script, (∀ e ∈ args, Fits32 e.2) → sk.emit args = some script →
    (disassemble script).2 = false ∧
      sk.matchScript (disassemble script).1 = some (sk.assigned args)
  total : ∀ args : List (String × Bytes), (∀ label ∈ slotLabels sk.items, ∃ v, (label, v) ∈ args) →
    ∃ script, sk.emit args = some script

theorem emits_of_sound {sk : Skeleton} (hsound : ∀ item ∈ sk.items, item.Sound) : sk.Emits where
  matched args script hfits h := by
    obtain ⟨insts, hreads, hadmits, hdata⟩ :=
      emitItems_reads hsound hfits h 0 (.done (0 + script.length))
    rw [List.append_nil, List.append_nil] at hreads
    rw [hreads.disassemble_eq]
    refine ⟨rfl, matchScript_eq_some.mpr ⟨hadmits, ?_, ?_⟩⟩
    · rw [Agree, hdata]
      exact slotArgs_functional args sk.items
    · rw [hdata, fieldsInOrder_slotArgs]
  total args hargs := by
    have hitems : ∀ items : List SkelItem, (∀ label ∈ slotLabels items, ∃ v, (label, v) ∈ args) →
        ∃ script, emitItems args items = some script := by
      intro items
      induction items with
      | nil => exact fun _ ↦ ⟨[], rfl⟩
      | cons item items ih =>
          intro hitems
          obtain ⟨last, hlast⟩ := ih fun label hlabel ↦ hitems label (by
            cases item with
            | op opcode => exact hlabel
            | constPush value raw => exact hlabel
            | slot label' => exact List.mem_cons_of_mem _ hlabel)
          obtain ⟨first, hfirst⟩ : ∃ first, emitItem args item = some first := by
            cases item with
            | op opcode => exact ⟨_, rfl⟩
            | constPush value raw => exact ⟨_, rfl⟩
            | slot label =>
                obtain ⟨v, hv⟩ := hitems label List.mem_cons_self
                cases hfind : find args label with
                | none => exact absurd hv (find_eq_none.mp hfind v)
                | some e => exact ⟨encodePush e.2, congrArg (Option.map _) hfind⟩
          exact ⟨first ++ last, by rw [emitItems, hfirst, hlast]; rfl⟩
    exact hitems sk.items hargs

/-! ## The two builds -/

/-- An item of two instructions: each is admitted, and a slot is labelled by the value
that the first pushes. -/
theorem deriveItem_eq_some {a : Bytes} {sentinels : List (String × Bytes)} {x : InstructionSpan}
    {y : Instruction} {item : SkelItem} (h : deriveItem a sentinels x y = some item) :
    item.Admits x.inst ∧ item.Admits y ∧
      (∀ v, pushValue x.inst = some v →
        ReadsAs (x.raw a) (fun inst ↦ pushValue inst = some v) → item.Sound) ∧
      (isPush x.inst = false → item.Sound) ∧
      ∀ label, item = .slot label → ∀ v, pushValue x.inst = some v → (label, v) ∈ sentinels := by
  unfold deriveItem at h
  split at h
  · rename_i hx hy
    split at h
    · rename_i hop
      obtain rfl := Option.some.inj h
      exact ⟨⟨hx, rfl⟩, ⟨hy, hop.symm⟩, fun _ _ _ ↦ op_sound hx, op_sound, nofun⟩
    · cases h
  · rename_i hx hy
    split at h
    · rename_i vx vy hvx hvy
      split at h
      · rename_i heq
        obtain rfl := Option.some.inj h
        refine ⟨hvx, by rw [heq]; exact hvy, ?_, fun hnot ↦ ?_, nofun⟩
        · intro v hv hreads
          rw [hvx, Option.some.injEq] at hv
          rw [hv]
          exact hreads
        · rw [hx] at hnot
          cases hnot
      · obtain ⟨e, he, rfl⟩ := Option.map_eq_some_iff.mp h
        refine ⟨⟨vx, hvx⟩, ⟨vy, hvy⟩, fun _ _ _ ↦ trivial, fun _ ↦ trivial, ?_⟩
        rintro label hlabel v hv
        obtain rfl := SkelItem.slot.inj hlabel
        rw [hvx, Option.some.injEq] at hv
        have hkey : e.2 = vx := by simpa using List.find?_some he
        rw [← hv, ← hkey]
        exact List.mem_of_find?_eq_some he
    · cases h
  · cases h

theorem deriveItems_eq_some {a : Bytes} {sentinels : List (String × Bytes)}
    {xs : List InstructionSpan} {ys : List Instruction} {items : List SkelItem}
    (hlen : xs.length = ys.length) (h : deriveItems a sentinels xs ys = some items)
    (hraw : ∀ x ∈ xs, ∀ v, pushValue x.inst = some v →
      ReadsAs (x.raw a) fun inst ↦ pushValue inst = some v) :
    List.Forall₂ (fun item inst ↦ item.Admits inst) items (xs.map (·.inst)) ∧
      List.Forall₂ (fun item inst ↦ item.Admits inst) items ys ∧
      (∀ item ∈ items, item.Sound) ∧
      ∀ e ∈ slotData items (xs.map (·.inst)), e ∈ sentinels := by
  induction xs generalizing ys items with
  | nil =>
      obtain rfl := List.length_eq_zero_iff.mp hlen.symm
      obtain rfl := Option.some.inj h
      exact ⟨.nil, .nil, fun _ hitem ↦ absurd hitem List.not_mem_nil,
        fun _ he ↦ absurd he List.not_mem_nil⟩
  | cons x xs ih =>
      obtain ⟨y, ys, rfl⟩ := List.exists_cons_of_length_eq_add_one hlen.symm
      rw [deriveItems] at h
      split at h
      · cases h
      · rename_i item hitem
        obtain ⟨items, hitems, rfl⟩ := Option.map_eq_some_iff.mp h
        obtain ⟨hx, hy, hpush, hop, hslot⟩ := deriveItem_eq_some hitem
        obtain ⟨hxs, hys, hsound, hdata⟩ := ih (Nat.succ.inj hlen) hitems
          fun x hx ↦ hraw x (List.mem_cons_of_mem _ hx)
        refine ⟨.cons hx hxs, .cons hy hys, List.forall_mem_cons.mpr ⟨?_, hsound⟩, ?_⟩
        · cases hv : pushValue x.inst with
          | some v => exact hpush v hv (hraw x List.mem_cons_self v hv)
          | none =>
              refine hop (Bool.eq_false_iff.mpr fun hpushed ↦ ?_)
              cases item with
              | op opcode =>
                  rw [hx.1] at hpushed
                  cases hpushed
              | constPush value raw =>
                  have hvalue : pushValue x.inst = some value := hx
                  rw [hv] at hvalue
                  cases hvalue
              | slot label =>
                  obtain ⟨v, hvalue⟩ := hx
                  rw [hv] at hvalue
                  cases hvalue
        · rw [List.map_cons]
          cases item with
          | op opcode => exact hdata
          | constPush value raw => exact hdata
          | slot label =>
              obtain ⟨v, hv⟩ := hx
              rw [slotData, hv]
              exact List.forall_mem_cons.mpr ⟨hslot label rfl v hv, hdata⟩

/-- What a derived skeleton asks of a script that it was derived from. -/
def Skeleton.Accepts (sk : Skeleton) (script : Bytes) : Prop :=
  (disassemble script).2 = false ∧ ∃ fields, sk.matchScript (disassemble script).1 = some fields

/-- A script pushes one value for each label of a skeleton. -/
def Skeleton.AgreesWith (sk : Skeleton) (script : Bytes) : Prop :=
  Agree sk.items (disassemble script).1

theorem accepts_iff_agrees {sk : Skeleton} {script : Bytes}
    (hwhole : (disassemble script).2 = false)
    (hadmits : List.Forall₂ (fun item inst ↦ item.Admits inst) sk.items (disassemble script).1) :
    sk.Accepts script ↔ sk.AgreesWith script := by
  constructor
  · rintro ⟨-, fields, hfields⟩
    exact (matchScript_eq_some.mp hfields).2.1
  · intro hagree
    exact ⟨hwhole, _, matchScript_eq_some.mpr ⟨hadmits, hagree, rfl⟩⟩

/-- A derived skeleton emits what it matches, and matches each of its builds exactly
when the build pushes one value for each label. -/
structure DerivedLaw (sk : Skeleton) (a b : Bytes) (sentinels : List (String × Bytes)) : Prop where
  emits : sk.Emits
  first : sk.Accepts a ↔ sk.AgreesWith a
  second : sk.Accepts b ↔ sk.AgreesWith b
  named : (sentinels.map (·.1)).Nodup → sk.Accepts a

theorem derive_law {name : String} {a b : Bytes} {sentinels : List (String × Bytes)}
    {sk : Skeleton} (h : Skeleton.derive name a b sentinels = some sk) :
    DerivedLaw sk a b sentinels := by
  unfold Skeleton.derive at h
  dsimp only at h
  split at h
  · cases h
  · rename_i hguard
    simp only [ne_eq, Bool.or_eq_true, decide_eq_true_eq, not_or, Bool.not_eq_true,
      not_not] at hguard
    obtain ⟨⟨hta, htb⟩, hlen⟩ := hguard
    obtain ⟨items, hitems, rfl⟩ := Option.map_eq_some_iff.mp h
    have hspans : (spans a.length (disassemble a).1).length = (disassemble b).1.length := by
      rw [← hlen, ← List.length_map (f := (·.inst)), spans_map_inst]
    obtain ⟨hxs, hys, hsound, hdata⟩ := deriveItems_eq_some hspans hitems (raw_push a)
    rw [spans_map_inst] at hxs hdata
    refine ⟨emits_of_sound hsound, accepts_iff_agrees hta hxs, accepts_iff_agrees htb hys, ?_⟩
    intro hnodup
    refine (accepts_iff_agrees hta hxs).mpr fun k u v hu hv ↦ ?_
    have heq := List.inj_on_of_nodup_map hnodup (hdata _ hu) (hdata _ hv) rfl
    exact (Prod.mk.inj heq).2

end Kascov
