import Kascov.Decode.Derive
import Kascov.Kcc1.State
import Kascov.Web.Disasm
import Kascov.Web.Hex

/-!
# The browser's contract generator

`disasm.js`: the port of the skeletons, of canonical pushes and of script numbers that
the contract page builds addresses with.  A call that throws is a call that gives
nothing.
-/

namespace Kascov

open Bindings LittleEndian ScriptNumber

/-! ## Skeletons -/

/-- An item of a skeleton, with the bytes that it is emitted as where it is fixed. -/
inductive PortItem where
  | op (opcode : UInt8) (raw : Bytes)
  | const (value raw : Bytes)
  | slot (label : String)
deriving DecidableEq, Repr

structure PortSkeleton where
  name : String
  items : List PortItem
  order : List String
deriving DecidableEq, Repr

/-- `pushValue`. -/
def portPushValue (inst : ListedInstruction) : Option Bytes :=
  match inst.data with
  | some data => some data
  | none =>
      if inst.opcode = 0x00 then some []
      else if inst.opcode = 0x4f then some [0x81]
      else if 0x51 ≤ inst.opcode ∧ inst.opcode ≤ 0x60 then some [inst.opcode - 0x50]
      else none

/-- `\s`. -/
def isBlank (c : Char) : Bool :=
  let n := c.toNat
  (9 ≤ n && n ≤ 13) || n == 0x20 || n == 0xa0 || n == 0x1680 || (0x2000 ≤ n && n ≤ 0x200a) ||
    n == 0x2028 || n == 0x2029 || n == 0x202f || n == 0x205f || n == 0x3000 || n == 0xfeff

/-- `parseHex`. -/
def parseHex (text : Text) : Option Bytes :=
  let s := (text.filter fun c ↦ !isBlank c).map Char.toLower
  let s :=
    match s with
    | '0' :: 'x' :: rest => rest
    | s => s
  if s = [] then none else hexBytes s

/-- One turn of the loop of `deriveSkeleton`. -/
def portDeriveItem (sentinels : List (String × Text)) (x : ListedInstruction) (raw : Bytes)
    (y : ListedInstruction) : Option PortItem :=
  if x.group ≠ .push ∧ y.group ≠ .push then
    if x.opcode ≠ y.opcode then none else some (.op x.opcode raw)
  else if x.group = .push ∧ y.group = .push then
    match portPushValue x, portPushValue y with
    | some vx, some vy =>
        if vx = vy then some (.const vx raw)
        else (sentinels.find? fun e ↦ vx = (parseHex e.2).getD []).map fun e ↦ .slot e.1
    | _, _ => none
  else none

/-- The loop of `deriveSkeleton`: a fixed item keeps the bytes up to the next
instruction. -/
def portDeriveItems (aBytes : Bytes) (sentinels : List (String × Text)) :
    List ListedInstruction → List ListedInstruction → Option (List PortItem)
  | x :: xs, y :: ys =>
      let stop := (xs.head?.map (·.offset)).getD aBytes.length
      match portDeriveItem sentinels x (byteRange aBytes x.offset stop) y with
      | none => none
      | some item => (portDeriveItems aBytes sentinels xs ys).map (item :: ·)
  | _, _ => some []

/-- `deriveSkeleton`. -/
def deriveSkeleton (name : String) (aHex bHex : Text) (sentinels : List (String × Text)) :
    Option PortSkeleton :=
  match parseHex aHex, parseHex bHex with
  | some aBytes, some bBytes =>
      let (as, ta) := portDisassemble aBytes
      let (bs, tb) := portDisassemble bBytes
      if ta || tb then none
      else if as.length ≠ bs.length then none
      else (portDeriveItems aBytes sentinels as bs).map fun items ↦
        ⟨name, items, sentinels.map (·.1)⟩
  | _, _ => none

/-! ## Pushes and emission -/

/-- `n & 0xff`, of a length as a 32-bit operand. -/
def maskByte (n : BitVec 32) : UInt8 := UInt8.ofNat (n &&& 0xff).toNat

/-- The port's `encodePush`. -/
def portEncodePush (value : Bytes) : Bytes :=
  let n : BitVec 32 := .ofNat 32 value.length
  if value.length = 0 then [0x00]
  else if value.length = 1 ∧ value.headD 0 = 0x81 then [0x4f]
  else if value.length = 1 ∧ 1 ≤ value.headD 0 ∧ value.headD 0 ≤ 16 then
    [0x50 + value.headD 0]
  else if value.length ≤ 75 then UInt8.ofNat value.length :: value
  else if value.length ≤ 0xff then 0x4c :: UInt8.ofNat value.length :: value
  else if value.length ≤ 0xffff then
    0x4d :: maskByte n :: UInt8.ofNat (n.sshiftRight 8).toNat :: value
  else
    0x4e :: maskByte n :: maskByte (n.sshiftRight 8) :: maskByte (n.sshiftRight 16) ::
      UInt8.ofNat (n >>> 24).toNat :: value

/-- `emitSkeleton`. -/
def emitSkeleton (args : List (String × Bytes)) : List PortItem → Option Bytes
  | [] => some []
  | item :: items =>
      let out : Option Bytes :=
        match item with
        | .slot label => (args.find? (·.1 = label)).map fun e ↦ portEncodePush e.2
        | .op _ raw => some raw
        | .const _ raw => some raw
      match out with
      | none => none
      | some out => (emitSkeleton args items).map (out ++ ·)

/-! ## Matching -/

/-- The values of a match, by label. -/
abbrev PortValues := String → Option Bytes

/-- One turn of the loop over the items of a skeleton. -/
def portMatchItem (item : PortItem) (inst : ListedInstruction) (values : PortValues) :
    Option PortValues :=
  match item with
  | .op opcode _ => if inst.group ≠ .push ∧ inst.opcode = opcode then some values else none
  | .const value _ => if portPushValue inst = some value then some values else none
  | .slot label =>
      match portPushValue inst with
      | none => none
      | some v =>
          match values label with
          | some prev => if prev = v then some (Function.update values label (some v)) else none
          | none => some (Function.update values label (some v))

/-- The loop over the items of a skeleton. -/
def portMatchItems : List PortItem → List ListedInstruction → PortValues → Option PortValues
  | item :: items, inst :: insts, values =>
      (portMatchItem item inst values).bind (portMatchItems items insts)
  | _, _, values => some values

/-- A name or a field, as the pages show it. -/
structure PortField where
  name : String
  value : Text
deriving DecidableEq

/-- One skeleton of the loop of `matchTemplates`. -/
def PortSkeleton.fieldsOf (skel : PortSkeleton) (instructions : List ListedInstruction) :
    Option (List PortField) :=
  if instructions.length ≠ skel.items.length then none
  else (portMatchItems skel.items instructions fun _ ↦ none).map fun values ↦
    skel.order.filterMap fun label ↦ (values label).map fun v ↦ ⟨label, toHex v⟩

/-- The state shapes that `matchTemplates` names before any skeleton. -/
def portStateShape (bytes : Bytes) : Option (String × List PortField) :=
  if (bytes.length = 34 ∨ bytes.length = 35) ∧
      bytes[0]?.map UInt8.toNat = some (bytes.length - 2) ∧
      bytes[bytes.length - 1]? = some 0xac then
    some ("p2pk state", [⟨"owner_pubkey", toHex (byteRange bytes 1 (bytes.length - 1))⟩])
  else if bytes.length = 35 ∧ bytes[0]? = some 0xaa ∧ bytes[1]? = some 0x20 ∧
      bytes[34]? = some 0x87 then
    some ("p2sh commitment", [⟨"program_hash", toHex (byteRange bytes 2 34)⟩])
  else none

/-- `matchTemplates`, for the skeletons derived at load. -/
def matchTemplates (skeletons : List PortSkeleton) (instructions : List ListedInstruction)
    (bytes : Option Bytes) : Option (String × List PortField) :=
  match bytes.bind portStateShape with
  | some shape => some shape
  | none => skeletons.findSome? fun skel ↦
      (skel.fieldsOf instructions).map fun fields ↦ (skel.name, fields)

/-! ## Script numbers -/

/-- `snumEncode`. -/
def snumEncode (v : Int) : Bytes :=
  if v = 0 then []
  else
    let out := digits v.natAbs
    match out.getLast? with
    | none => out
    | some last =>
        if high last then out ++ [if v < 0 then 0x80 else 0x00]
        else if v < 0 then out.dropLast ++ [last ||| 0x80]
        else out

/-- `snumDecode`. -/
def snumDecode (bytes : Bytes) : Int :=
  match bytes.getLast? with
  | none => 0
  | some last =>
      let n : Nat := value (bytes.dropLast ++ [last &&& 0x7f])
      if high last then -n else n

/-- `snum` of the decoder: the sign is not written. -/
def snum (v : I64) : Bytes := guarded (digits v.val.natAbs)

/-! ## Pushes agree -/

theorem maskByte_toNat (x : BitVec 32) : maskByte x = UInt8.ofNat x.toNat := by
  have hand : (x &&& 0xff).toNat = x.toNat % 2 ^ 8 := by
    rw [BitVec.toNat_and]
    exact Nat.and_two_pow_sub_one_eq_mod x.toNat 8
  refine UInt8.toNat_inj.mp ?_
  rw [maskByte, hand, UInt8.toNat_ofNat', UInt8.toNat_ofNat']
  omega

/-- The sign does not reach the byte that a shift of 24 bits at most leaves lowest. -/
theorem maskByte_sshiftRight (x : BitVec 32) {k : Nat} (hk : k ≤ 24) :
    maskByte (x.sshiftRight k) = UInt8.ofNat (x.toNat / 2 ^ k) := by
  have hmask : x.sshiftRight k &&& 0xff = x >>> k &&& 0xff := by
    refine BitVec.eq_of_getLsbD_eq fun i hi ↦ ?_
    rw [BitVec.getLsbD_and, BitVec.getLsbD_and, BitVec.getLsbD_sshiftRight,
      BitVec.getLsbD_ushiftRight]
    by_cases hlow : i < 8
    · have hin : k + i < 32 := by omega
      have hout : ¬32 ≤ i := by omega
      simp [hin, hout]
    · have hff : (0xff : BitVec 32).getLsbD i = false := by
        change (BitVec.ofNat 32 0xff).getLsbD i = false
        rw [BitVec.getLsbD_ofNat]
        have hbit := Nat.testBit_two_pow_sub_one 8 i
        rw [show 2 ^ 8 - 1 = 0xff from rfl, decide_eq_false hlow] at hbit
        rw [hbit, Bool.and_false]
      rw [hff, Bool.and_false, Bool.and_false]
  have hnat := maskByte_toNat (x >>> k)
  rw [maskByte, ← hmask] at hnat
  rw [maskByte, hnat, BitVec.toNat_ushiftRight, Nat.shiftRight_eq_div_pow]

/-- The low bytes of a length do not see what 32 bits cut off. -/
theorem ofNat_mod_div (n : Nat) : ∀ k ∈ [0, 8, 16, 24],
    UInt8.ofNat (n % 2 ^ 32 / 2 ^ k) = UInt8.ofNat (n / 2 ^ k) := by
  intro k hk
  refine UInt8.toNat_inj.mp ?_
  rw [UInt8.toNat_ofNat', UInt8.toNat_ofNat']
  simp only [List.mem_cons, List.not_mem_nil, or_false] at hk
  rcases hk with rfl | rfl | rfl | rfl
  · omega
  · omega
  · omega
  · omega

/-- A payload that no numeric opcode owns is written with its length. -/
theorem portEncodePush_long {value : Bytes} (hlen : 2 ≤ value.length) :
    portEncodePush value = lengthPrefix value.length ++ value := by
  have hmask : ∀ k ∈ [0, 8, 16, 24],
      UInt8.ofNat ((BitVec.ofNat 32 value.length).toNat / 2 ^ k) =
        UInt8.ofNat (value.length / 2 ^ k) := by
    intro k hk
    rw [BitVec.toNat_ofNat]
    exact ofNat_mod_div value.length k hk
  have hlow : maskByte (BitVec.ofNat 32 value.length) = UInt8.ofNat value.length := by
    have h := hmask 0 (by decide)
    rw [pow_zero, Nat.div_one, Nat.div_one] at h
    rw [maskByte_toNat, h]
  have hshift : ∀ k ∈ [8, 16],
      maskByte ((BitVec.ofNat 32 value.length).sshiftRight k) =
        UInt8.ofNat (value.length / 2 ^ k) := by
    intro k hk
    simp only [List.mem_cons, List.not_mem_nil, or_false] at hk
    rcases hk with rfl | rfl
    · rw [maskByte_sshiftRight _ (by decide), hmask 8 (by decide)]
    · rw [maskByte_sshiftRight _ (by decide), hmask 16 (by decide)]
  have hhigh : UInt8.ofNat ((BitVec.ofNat 32 value.length) >>> 24).toNat =
      UInt8.ofNat (value.length / 2 ^ 24) := by
    rw [BitVec.toNat_ushiftRight, Nat.shiftRight_eq_div_pow, hmask 24 (by decide)]
  unfold portEncodePush lengthPrefix
  dsimp only
  rw [if_neg (by omega), if_neg (by omega), if_neg (by omega)]
  split
  · rfl
  · split
    · rfl
    · split
      · rename_i hle
        have hpos : (BitVec.ofNat 32 value.length).msb = false := by
          rw [BitVec.msb_eq_false_iff_two_mul_lt, BitVec.toNat_ofNat]
          omega
        have hmid : UInt8.ofNat ((BitVec.ofNat 32 value.length).sshiftRight 8).toNat =
            UInt8.ofNat (value.length / 2 ^ 8) := by
          rw [BitVec.sshiftRight_eq_of_msb_false hpos, BitVec.toNat_ushiftRight,
            Nat.shiftRight_eq_div_pow, hmask 8 (by decide)]
        rw [hlow, hmid]
        rfl
      · rw [hlow, hshift 8 (by decide), hshift 16 (by decide), hhigh]
        rfl

/-- The two writers of canonical pushes agree on every payload. -/
theorem portEncodePush_eq (value : Bytes) : portEncodePush value = encodePush value := by
  match value with
  | [] => rfl
  | [v] =>
      simp only [portEncodePush, encodePush, List.length_singleton, one_ne_zero, if_false,
        List.headD_cons, true_and, smallOpcode]
      split
      · rfl
      · split
        · rfl
        · rfl
  | a :: b :: rest => exact portEncodePush_long (by simp)

/-! ## Text -/

theorem hexDigit_plain : ∀ n : Fin 16, isBlank (hexDigit n) = false ∧
    (hexDigit n).toLower = hexDigit n ∧ hexDigit n ≠ 'x' := by
  decide +kernel

/-- Every character that is written is a digit. -/
theorem toHex_plain {bytes : Bytes} {c : Char} (h : c ∈ toHex bytes) :
    isBlank c = false ∧ c.toLower = c ∧ c ≠ 'x' := by
  obtain ⟨b, -, hc⟩ := List.mem_flatMap.mp h
  have hb := b.toNat_lt
  rcases List.mem_cons.mp hc with rfl | hc
  · exact hexDigit_plain ⟨b.toNat / 16, by omega⟩
  · rw [List.mem_singleton.mp hc]
    exact hexDigit_plain ⟨b.toNat % 16, Nat.mod_lt _ (by decide)⟩

theorem parseHex_toHex (bytes : Bytes) :
    parseHex (toHex bytes) = if bytes = [] then none else some bytes := by
  have hfilter : (toHex bytes).filter (fun c ↦ !isBlank c) = toHex bytes :=
    List.filter_eq_self.mpr fun c hc ↦ by rw [(toHex_plain hc).1]; rfl
  have hmap : (toHex bytes).map Char.toLower = toHex bytes :=
    (List.map_congr_left fun c hc ↦ (toHex_plain hc).2.1).trans (List.map_id _)
  unfold parseHex
  dsimp only
  rw [hfilter, hmap]
  cases bytes with
  | nil => rfl
  | cons b bytes =>
      have hmarker : ∀ rest, toHex (b :: bytes) ≠ '0' :: 'x' :: rest := by
        intro rest heq
        have hmem : 'x' ∈ toHex (b :: bytes) := by simp [heq]
        exact (toHex_plain hmem).2.2 rfl
      split
      · rename_i rest heq
        exact absurd heq (hmarker rest)
      · rw [if_neg (by simp [toHex]), if_neg (List.cons_ne_nil _ _), hexBytes_toHex]

theorem parseHex_toHex_getD (bytes : Bytes) : (parseHex (toHex bytes)).getD [] = bytes := by
  rw [parseHex_toHex]
  split
  · rename_i h
    rw [h]
    rfl
  · rfl

/-! ## Derivation agrees -/

/-- An item as the port keeps it. -/
def SkelItem.port : SkelItem → PortItem
  | .op opcode => .op opcode [opcode]
  | .constPush value raw => .const value raw
  | .slot label => .slot label

def Skeleton.port (sk : Skeleton) : PortSkeleton :=
  ⟨sk.name, sk.items.map SkelItem.port, sk.paramOrder⟩

theorem group_ofNat : ∀ n : Fin 256, isPush ⟨0, UInt8.ofNat n, none⟩ =
    decide ((opcodeInfo (UInt8.ofNat n)).2 = .push) := by
  decide +kernel

/-- The group of an opcode says whether it is a push. -/
theorem listed_group (inst : Instruction) :
    inst.listed.group = .push ↔ isPush inst = true := by
  have h := group_ofNat ⟨inst.opcode.toNat, inst.opcode.toNat_lt⟩
  simp only [UInt8.ofNat_toNat] at h
  have hpush : isPush inst = isPush ⟨0, inst.opcode, none⟩ := rfl
  rw [hpush, h, decide_eq_true_iff]
  rfl

theorem portPushValue_listed (inst : Instruction) :
    portPushValue inst.listed = pushValue inst := rfl

theorem portDeriveItem_eq {a : Bytes} {sentinels : List (String × Bytes)} {x : InstructionSpan}
    {y : Instruction} (hraw : isPush x.inst = false → x.raw a = [x.inst.opcode]) :
    portDeriveItem (sentinels.map fun e ↦ (e.1, toHex e.2)) x.inst.listed (x.raw a) y.listed =
      (deriveItem a sentinels x y).map SkelItem.port := by
  have hfind : ∀ vx : Bytes,
      ((sentinels.map fun e ↦ (e.1, toHex e.2)).find? fun e ↦ vx = (parseHex e.2).getD []).map
        (fun e ↦ PortItem.slot e.1) =
      ((sentinels.find? (·.2 = vx)).map fun e ↦ SkelItem.slot e.1).map SkelItem.port := by
    intro vx
    rw [List.find?_map, Option.map_map, Option.map_map]
    have hcongr : ((fun e : String × Text ↦ decide (vx = (parseHex e.2).getD [])) ∘
        fun e : String × Bytes ↦ (e.1, toHex e.2)) = fun e ↦ decide (e.2 = vx) := by
      funext e
      rw [Function.comp_apply, parseHex_toHex_getD]
      exact decide_eq_decide.mpr eq_comm
    rw [hcongr]
    rfl
  unfold portDeriveItem deriveItem
  simp only [ne_eq, listed_group, portPushValue_listed]
  cases hx : isPush x.inst with
  | false =>
      cases hy : isPush y with
      | false =>
          have hop : x.inst.listed.opcode = x.inst.opcode := rfl
          have hop' : y.listed.opcode = y.opcode := rfl
          simp only [Bool.false_eq_true, not_false_eq_true, and_self, if_true, hop, hop', hraw hx]
          by_cases heq : x.inst.opcode = y.opcode
          · simp [heq, SkelItem.port]
          · simp [heq]
      | true => simp
  | true =>
      cases hy : isPush y with
      | false => simp
      | true =>
          simp only [not_true_eq_false, and_self, if_false, if_true]
          cases hvx : pushValue x.inst with
          | none => rfl
          | some vx =>
              cases hvy : pushValue y with
              | none => rfl
              | some vy =>
                  dsimp only
                  by_cases heq : vx = vy
                  · rw [if_pos heq, if_pos heq]
                    rfl
                  · rw [if_neg heq, if_neg heq, hfind vx]

theorem portDeriveItems_eq {a : Bytes} {sentinels : List (String × Bytes)}
    {xs ys : List Instruction}
    (hraw : ∀ x ∈ spans a.length xs, isPush x.inst = false → x.raw a = [x.inst.opcode]) :
    portDeriveItems a (sentinels.map fun e ↦ (e.1, toHex e.2)) (xs.map Instruction.listed)
        (ys.map Instruction.listed) =
      (deriveItems a sentinels (spans a.length xs) ys).map (·.map SkelItem.port) := by
  induction xs generalizing ys with
  | nil => rfl
  | cons x xs ih =>
      cases ys with
      | nil => rfl
      | cons y ys =>
          rw [spans] at hraw
          obtain ⟨hx, hxs⟩ := List.forall_mem_cons.mp hraw
          have hitem := @portDeriveItem_eq a sentinels _ y hx
          have hstop : (((xs.map Instruction.listed).head?).map (·.offset)) =
              xs.head?.map (·.offset) := by
            rw [List.head?_map, Option.map_map]
            rfl
          rw [List.map_cons, List.map_cons, portDeriveItems, spans, deriveItems, hstop]
          dsimp only [InstructionSpan.raw] at hitem ⊢
          have hoffset : x.listed.offset = x.offset := rfl
          rw [hoffset, hitem]
          cases deriveItem a sentinels
              ⟨x, x.offset, (xs.head?.map (·.offset)).getD a.length⟩ y with
          | none => rfl
          | some item =>
              dsimp only [Option.map_some]
              rw [ih hxs, Option.map_map, Option.map_map]
              rfl

theorem disassemble_ne_nil {script : Bytes} (h : script ≠ []) : (disassemble script).1 ≠ [] := by
  intro hnil
  have hreads := disassemble_reads script
  rw [hnil] at hreads
  cases hreads
  exact h rfl

/-- The two derivations agree, where the builds are not both empty. -/
theorem deriveSkeleton_eq {name : String} {a b : Bytes} {sentinels : List (String × Bytes)}
    (hne : ¬(a = [] ∧ b = [])) :
    deriveSkeleton name (toHex a) (toHex b) (sentinels.map fun e ↦ (e.1, toHex e.2)) =
      (Skeleton.derive name a b sentinels).map Skeleton.port := by
  unfold deriveSkeleton Skeleton.derive
  rw [parseHex_toHex, parseHex_toHex]
  by_cases ha : a = []
  · have hb : b ≠ [] := fun hb ↦ hne ⟨ha, hb⟩
    have hlen : 0 ≠ (disassemble b).1.length :=
      (List.length_pos_iff.mpr (disassemble_ne_nil hb)).ne
    subst ha
    have hempty : disassemble [] = ([], false) := rfl
    simp [hempty, hlen]
  · by_cases hb : b = []
    · have hlen : (disassemble a).1.length ≠ 0 :=
        (List.length_pos_iff.mpr (disassemble_ne_nil ha)).ne'
      subst hb
      have hempty : disassemble [] = ([], false) := rfl
      rw [if_neg ha, if_pos rfl]
      simp only [hempty, List.length_nil]
      simp [hlen]
    · rw [if_neg ha, if_neg hb]
      simp only [portDisassemble_eq, listing, List.length_map]
      by_cases htrunc : ((disassemble a).2 || (disassemble b).2) = true
      · simp [htrunc]
      · by_cases hlen : (disassemble a).1.length = (disassemble b).1.length
        · have hguard : ¬((disassemble a).2 || (disassemble b).2 ||
              decide ((disassemble a).1.length ≠ (disassemble b).1.length)) = true := by
            simp [htrunc, hlen]
          rw [if_neg htrunc, if_neg (not_not.mpr hlen), if_neg hguard,
            portDeriveItems_eq (raw_op a), Option.map_map, Option.map_map]
          have horder : (sentinels.map fun e ↦ (e.1, toHex e.2)).map (·.1) =
              sentinels.map (·.1) := by
            rw [List.map_map]
            rfl
          rw [horder]
          rfl
        · simp [hlen]

/-! ## Emission and matching agree -/

theorem emitSkeleton_eq (args : List (String × Bytes)) (items : List SkelItem) :
    emitSkeleton args (items.map SkelItem.port) = emitItems args items := by
  induction items with
  | nil => rfl
  | cons item items ih =>
      rw [List.map_cons, emitItems, ← ih]
      cases item with
      | op opcode => rfl
      | constPush value raw => rfl
      | slot label =>
          cases hfind : args.find? (·.1 = label) with
          | none => simp [SkelItem.port, emitSkeleton, emitItem, hfind]
          | some e => simp [SkelItem.port, emitSkeleton, emitItem, hfind, portEncodePush_eq]

/-- The values of the port are those that the decoder finds. -/
def SameValues (values : PortValues) (values' : SlotValues) : Prop :=
  ∀ label, values label = (find values' label).map (·.2)

theorem portMatchItem_eq {item : SkelItem} {inst : Instruction} {values : PortValues}
    {values' : SlotValues} (h : SameValues values values') :
    Option.Rel SameValues (portMatchItem item.port inst.listed values)
      (matchSkelItem item inst values') := by
  have hop : inst.listed.opcode = inst.opcode := rfl
  cases item with
  | op opcode =>
      simp only [SkelItem.port, portMatchItem, matchSkelItem, ne_eq, listed_group, hop,
        Bool.not_eq_true, Bool.and_eq_true, Bool.not_eq_eq_eq_not, Bool.not_true, beq_iff_eq]
      split
      · exact .some h
      · exact .none
  | constPush value raw =>
      by_cases hv : pushValue inst = some value
      · have hport : portMatchItem (.const value raw) inst.listed values = some values := if_pos hv
        have hrust : matchSkelItem (.constPush value raw) inst values' = some values' := if_pos hv
        rw [SkelItem.port, hport, hrust]
        exact .some h
      · have hport : portMatchItem (.const value raw) inst.listed values = none := if_neg hv
        have hrust : matchSkelItem (.constPush value raw) inst values' = none := if_neg hv
        rw [SkelItem.port, hport, hrust]
        exact .none
  | slot label =>
      cases hv : pushValue inst with
      | none =>
          simp only [SkelItem.port, portMatchItem, matchSkelItem, portPushValue_listed, hv]
          exact .none
      | some v =>
          rw [matchSkelItem_slot hv]
          simp only [SkelItem.port, portMatchItem, portPushValue_listed, hv, h label]
          unfold bindOne
          dsimp only
          cases hfind : find values' label with
          | none =>
              refine .some fun k ↦ ?_
              rw [find_append]
              by_cases hk : k = label
              · subst hk
                rw [Function.update_self, hfind]
                simp [find]
              · rw [Function.update_of_ne hk, h k]
                have hother : find [(label, v)] k = none :=
                  find_eq_none.mpr fun u hu ↦ hk (Prod.mk.inj (List.mem_singleton.mp hu)).1
                rw [hother, Option.or_none]
          | some prev =>
              dsimp only [Option.map_some]
              split
              · rename_i heq
                refine .some fun k ↦ ?_
                by_cases hk : k = label
                · subst hk
                  rw [Function.update_self, hfind, ← heq]
                  rfl
                · rw [Function.update_of_ne hk, h k]
              · exact .none

theorem portMatchItems_eq {items : List SkelItem} {insts : List Instruction}
    {values : PortValues} {values' : SlotValues} (h : SameValues values values') :
    Option.Rel SameValues
      (portMatchItems (items.map SkelItem.port) (insts.map Instruction.listed) values)
      (matchItems items insts values') := by
  induction items generalizing insts values values' with
  | nil => exact .some h
  | cons item items ih =>
      cases insts with
      | nil => exact .some h
      | cons inst insts =>
          rw [List.map_cons, List.map_cons, portMatchItems, matchItems]
          have hitem := @portMatchItem_eq item inst _ _ h
          generalize portMatchItem item.port inst.listed values = left at hitem
          generalize matchSkelItem item inst values' = right at hitem
          cases hitem with
          | none => exact .none
          | some hmid => exact ih hmid

/-- The port matches a skeleton as the decoder does, and shows its fields. -/
theorem fieldsOf_eq (sk : Skeleton) (insts : List Instruction) :
    sk.port.fieldsOf (insts.map Instruction.listed) =
      (sk.matchScript insts).map fun fields ↦ fields.map fun f ↦ ⟨f.name, toHex f.value⟩ := by
  unfold PortSkeleton.fieldsOf Skeleton.matchScript
  have hlen : sk.port.items.length = sk.items.length := List.length_map _
  rw [List.length_map, hlen]
  split
  · rfl
  · have hmatch := @portMatchItems_eq sk.items insts (fun _ ↦ none) [] fun _ ↦ rfl
    change Option.map _ (portMatchItems (sk.items.map SkelItem.port) _ _) = _
    generalize portMatchItems (sk.items.map SkelItem.port) (insts.map Instruction.listed)
      (fun _ ↦ none) = left at hmatch
    generalize matchItems sk.items insts [] = right at hmatch
    cases hmatch with
    | none => rfl
    | some hvalues =>
        simp only [Option.map_some, fieldsInOrder, List.map_filterMap, Option.map_map]
        refine congrArg some (List.filterMap_congr fun label _ ↦ ?_)
        rw [hvalues label, Option.map_map]
        rfl

/-! ## Script numbers agree -/

theorem snumEncode_eq (v : Int) : snumEncode v = encode v := by
  unfold snumEncode
  split
  · rename_i hzero
    rw [hzero, encode_zero]
  · dsimp only
    cases hlast : (digits v.natAbs).getLast? with
    | none =>
        have hguarded : guarded (digits v.natAbs) = digits v.natAbs := by rw [guarded, hlast]
        have hsigned : setSign (digits v.natAbs) = digits v.natAbs := by rw [setSign, hlast]
        rw [encode, hguarded, hsigned, ite_self]
    | some last =>
        dsimp only
        split
        · rename_i hhigh
          have hguarded : guarded (digits v.natAbs) = digits v.natAbs ++ [0] := by
            rw [guarded, hlast]
            exact if_pos hhigh
          rw [encode, hguarded, setSign_concat]
          split
          · rfl
          · rfl
        · rename_i hlow
          have hguarded : guarded (digits v.natAbs) = digits v.natAbs := by
            rw [guarded, hlast]
            exact if_neg hlow
          rw [encode, hguarded, setSign, hlast]
          rfl

theorem snumDecode_eq (bytes : Bytes) : snumDecode bytes = decode bytes := rfl

theorem snum_eq {v : I64} (h : 0 ≤ v.val) : snum v = encode v.val := by
  rw [encode, if_neg (not_lt.mpr h)]
  rfl

/-! ## The law of the generator -/

/-- The generator does what the decoder does: it derives, emits and matches alike, and
writes the numbers that the decoder writes. -/
structure GeneratorAgrees : Prop where
  derives : ∀ name (a b : Bytes) (sentinels : List (String × Bytes)), ¬(a = [] ∧ b = []) →
    deriveSkeleton name (toHex a) (toHex b) (sentinels.map fun e ↦ (e.1, toHex e.2)) =
      (Skeleton.derive name a b sentinels).map Skeleton.port
  emits : ∀ (sk : Skeleton) args, emitSkeleton args sk.port.items = sk.emit args
  matched : ∀ (sks : List Skeleton) (insts : List Instruction) (bytes : Option Bytes),
    bytes.bind portStateShape = none →
    matchTemplates (sks.map Skeleton.port) (insts.map Instruction.listed) bytes =
      sks.findSome? fun sk ↦ (sk.matchScript insts).map fun fields ↦
        (sk.name, fields.map fun f ↦ ⟨f.name, toHex f.value⟩)
  encodes : ∀ v : I64, 0 ≤ v.val → snumEncode v.val = snum v
  encodesArg : ∀ v : I64, v ≠ I64.min → encodeArgInt v = some (snumEncode v.val)
  decodes : ∀ v : Int, snumDecode (snumEncode v) = v

theorem generator_agrees : GeneratorAgrees where
  derives _ _ _ _ hne := deriveSkeleton_eq hne
  emits sk args := emitSkeleton_eq args sk.items
  matched sks insts bytes hshape := by
    unfold matchTemplates
    rw [hshape, List.findSome?_map]
    refine congrArg (sks.findSome? ·) (funext fun sk ↦ ?_)
    rw [Function.comp_apply, fieldsOf_eq, Option.map_map]
    rfl
  encodes v hv := by rw [snumEncode_eq, snum_eq hv]
  encodesArg v hv := by rw [encodeArgInt, if_neg hv, snumEncode_eq]
  decodes v := by rw [snumEncode_eq, snumDecode_eq, decode_encode]

/-- The sign of a number is written in the page only, two empty builds are a skeleton of the
decoder only, and the page names a bare key's state before it asks any skeleton. -/
theorem generator_differs :
    (¬∀ v : I64, snumEncode v.val = snum v) ∧
      (¬∀ name (a b : Bytes) (sentinels : List (String × Bytes)),
        (deriveSkeleton name (toHex a) (toHex b)
          (sentinels.map fun e ↦ (e.1, toHex e.2))).isSome =
            (Skeleton.derive name a b sentinels).isSome) ∧
      ¬∀ (sks : List Skeleton) (bytes : Bytes),
        matchTemplates (sks.map Skeleton.port) ((disassemble bytes).1.map Instruction.listed)
            (some bytes) =
          sks.findSome? fun sk ↦ (sk.matchScript (disassemble bytes).1).map fun fields ↦
            (sk.name, fields.map fun f ↦ ⟨f.name, toHex f.value⟩) := by
  refine ⟨?_, ?_, ?_⟩
  · intro h
    have hone := h ⟨-1, by decide⟩
    have hdigits : digits 1 = [1] := by simp [digits]
    simp [snumEncode, snum, guarded, hdigits] at hone
    exact absurd hone (by decide)
  · intro h
    exact absurd (h "x" [] [] []) (by decide)
  · intro h
    have hshape := h [] (0x20 :: List.replicate 32 0 ++ [0xac])
    rw [matchTemplates, Option.bind_some, show portStateShape (0x20 :: List.replicate 32 0 ++ [0xac]) =
      some ("p2pk state", [⟨"owner_pubkey", toHex (List.replicate 32 0)⟩]) from rfl] at hshape
    cases hshape

end Kascov
