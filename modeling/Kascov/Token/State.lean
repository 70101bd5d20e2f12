import Kascov.Decode.Registry
import Kascov.Token.Tables

/-!
# The state of a token cell

`kcc20.rs`: every build of the token contract opens with the four state fields,
at fixed offsets, with or without the alt-stack guards.  A candidate state is
spliced into a program of the same build and accepted if the result hashes to
the commitment of the output.
-/

namespace Kascov

/-- `TOKEN_TEMPLATE`. -/
def tokenTemplate : String := "KCC20 token"

/-- An eight-byte array. -/
abbrev Bytes8 := { b : Bytes // b.length = 8 }

namespace TokenState

/-- `amount_i64`: eight little-endian bytes with the sign bit clear. -/
def amountI64 (st : TokenState) : Option Int :=
  if st.amountRaw.length = 8 then
    let v : Nat := st.amountRaw.foldr (fun b acc ↦ b.toNat + 2 ^ 8 * acc) 0
    if v < 2 ^ 63 then some v else none
  else none

/-- `is_minter`. -/
def isMinter (st : TokenState) : Option Bool :=
  if st.minterRaw = [0x00] then some false
  else if st.minterRaw = [0x01] then some true
  else none

/-- `owner_key`. -/
def ownerKey (st : TokenState) : OwnerKey := ⟨st.identifierType, st.owner⟩

end TokenState

structure StateBlock where
  start : Nat
  guarded : Bool
deriving DecidableEq, Repr

/-- `locate_state_block`. -/
def locateStateBlock (program : Bytes) : Option StateBlock :=
  if 48 ≤ program.length ∧ program[0]? = some 0x6b ∧ program[1]? = some 0x20 ∧
      program[34]? = some 0x01 ∧ program[36]? = some 0x08 ∧ program[45]? = some 0x01 ∧
      program[47]? = some 0x6c then
    some ⟨1, true⟩
  else if 46 ≤ program.length ∧ program[0]? = some 0x20 ∧ program[33]? = some 0x01 ∧
      program[35]? = some 0x08 ∧ program[44]? = some 0x01 then
    some ⟨0, false⟩
  else none

/-- `program.get(start..start + len)`. -/
def slice (program : Bytes) (start len : Nat) : Option Bytes :=
  if start + len ≤ program.length then some ((program.drop start).take len) else none

/-- `decode_state_block`. -/
def decodeStateBlock (program : Bytes) : Option TokenState := do
  let b ← locateStateBlock program
  let owner ← (slice program (b.start + 1) 32).bind toBytes32
  let identifierType ← program[b.start + 34]?
  let amount ← slice program (b.start + 36) 8
  let minter ← program[b.start + 45]?
  return { owner, identifierType, amountRaw := amount, minterRaw := [minter] }

/-- The field of a label, as `decode_token_state` looks it up. -/
def fieldNamed (fields : List Field) (name : String) : Option Bytes :=
  (fields.find? (·.name = name)).map (·.value)

/-- The state in the fields of a matched skeleton. -/
def stateOfFields (fields : List Field) : Option TokenState := do
  let owner ← (fieldNamed fields "owner_identifier").bind toBytes32
  let idType ← fieldNamed fields "identifier_type"
  match idType with
  | [identifierType] =>
      let amount ← fieldNamed fields "amount"
      let minter ← fieldNamed fields "is_minter"
      return { owner, identifierType, amountRaw := amount, minterRaw := minter }
  | _ => none

/-- `decode_token_state`. -/
def decodeTokenState (registry : Registry) (spkVersion : Nat) (program : Bytes) :
    Option TokenState :=
  let d := registry.decode spkVersion program
  if d.template = some tokenTemplate then stateOfFields d.fields
  else decodeStateBlock program

/-- `p[start..].copy_from_slice(bytes)`. -/
def overwrite (p : Bytes) (start : Nat) (bytes : Bytes) : Bytes :=
  p.take start ++ bytes ++ p.drop (start + bytes.length)

/-- `splice_token_state`. -/
def spliceTokenState (program : Bytes) (owner : Bytes32) (identifierType : UInt8)
    (amount : Bytes8) (isMinter : UInt8) : Option Bytes :=
  (locateStateBlock program).map fun b ↦
    let p := overwrite program (b.start + 1) owner.val
    let p := overwrite p (b.start + 34) [identifierType]
    let p := overwrite p (b.start + 36) amount.val
    overwrite p (b.start + 45) [isMinter]

/-- `prove_output_state`. -/
def proveOutputState (blake2b : Bytes → Bytes) (baseProgram outputSpk : Bytes)
    (owner : Bytes32) (identifierType : UInt8) (amount : Bytes8) (isMinter : UInt8) :
    Option TokenState :=
  match p2shHash outputSpk with
  | none => none
  | some want =>
      match spliceTokenState baseProgram owner identifierType amount isMinter with
      | none => none
      | some candidate =>
          if blake2b candidate = want then
            some { owner, identifierType, amountRaw := amount.val, minterRaw := [isMinter] }
          else none

/-! ## A program with a state block, taken apart -/

/-- The 46 bytes of a state block. -/
def blockBytes (owner : Bytes32) (identifierType : UInt8) (amount : Bytes8)
    (isMinter : UInt8) : Bytes :=
  0x20 :: (owner.val ++ 0x01 :: identifierType :: 0x08 :: (amount.val ++ [0x01, isMinter]))

/-- The guard before a block. -/
def opening (guarded : Bool) : Bytes := if guarded then [0x6b] else []

/-- The guard after a block. -/
def closing (guarded : Bool) : Bytes := if guarded then [0x6c] else []

/-- A program of a build: the block in its guards, and the rest. -/
def frame (guarded : Bool) (block rest : Bytes) : Bytes :=
  opening guarded ++ block ++ (closing guarded ++ rest)

theorem blockBytes_length (owner : Bytes32) (t : UInt8) (amount : Bytes8) (m : UInt8) :
    (blockBytes owner t amount m).length = 46 := by
  simp only [blockBytes, List.length_cons, List.length_append, List.length_nil, owner.2,
    amount.2]

/-- Forty-six bytes with the four push opcodes in place are a block. -/
theorem exists_block {q : Bytes} (hlen : 46 ≤ q.length) (h0 : q[0]? = some 0x20)
    (h33 : q[33]? = some 0x01) (h35 : q[35]? = some 0x08) (h44 : q[44]? = some 0x01) :
    ∃ owner t amount m rest, q = blockBytes owner t amount m ++ rest := by
  obtain ⟨x, q, rfl⟩ := List.exists_cons_of_length_pos (by omega : 0 < q.length)
  obtain rfl : x = 0x20 := Option.some.inj h0
  rw [List.length_cons] at hlen
  have howner : (q.take 32).length = 32 := by
    rw [List.length_take]
    omega
  obtain ⟨a, t, b, q', hq'⟩ : ∃ a t b q', q.drop 32 = a :: t :: b :: q' := by
    match hdrop : q.drop 32 with
    | a :: t :: b :: q' => exact ⟨a, t, b, q', rfl⟩
    | [_, _] | [_] | [] =>
        have hshort := congrArg List.length hdrop
        simp at hshort
        omega
  have hrest : q'.length + 35 = q.length := by
    have hdrop := congrArg List.length hq'
    simp only [List.length_drop, List.length_cons] at hdrop
    omega
  have hamount : (q'.take 8).length = 8 := by
    rw [List.length_take]
    omega
  obtain ⟨c, m, rest, hrest'⟩ : ∃ c m rest, q'.drop 8 = c :: m :: rest := by
    match hdrop : q'.drop 8 with
    | c :: m :: rest => exact ⟨c, m, rest, rfl⟩
    | [_] | [] =>
        have hshort := congrArg List.length hdrop
        simp at hshort
        omega
  have hq : q = q.take 32 ++ a :: t :: b :: (q'.take 8 ++ c :: m :: rest) := by
    rw [← hrest', List.take_append_drop, ← hq', List.take_append_drop]
  have hget : ∀ i, (0x20 :: q)[i + 33]? = (q.drop 32)[i]? := fun i ↦ by
    rw [List.getElem?_drop, show i + 33 = (32 + i) + 1 by omega, List.getElem?_cons_succ]
  have hget' : (q.drop 32)[11]? = (q'.drop 8)[0]? := by
    rw [hq', List.getElem?_drop]
    rfl
  obtain rfl : a = 0x01 := by
    rw [hget 0, hq'] at h33
    exact Option.some.inj h33
  obtain rfl : b = 0x08 := by
    rw [hget 2, hq'] at h35
    exact Option.some.inj h35
  obtain rfl : c = 0x01 := by
    rw [hget 11, hget', hrest'] at h44
    exact Option.some.inj h44
  refine ⟨⟨q.take 32, howner⟩, t, ⟨q'.take 8, hamount⟩, m, rest, ?_⟩
  simp only [blockBytes, List.cons_append, List.append_assoc, List.nil_append]
  rw [← hq]

theorem block_getElem (owner : Bytes32) (t : UInt8) (amount : Bytes8) (m : UInt8)
    (rest : Bytes) :
    (blockBytes owner t amount m ++ rest)[0]? = some 0x20 ∧
      (blockBytes owner t amount m ++ rest)[33]? = some 0x01 ∧
      (blockBytes owner t amount m ++ rest)[35]? = some 0x08 ∧
      (blockBytes owner t amount m ++ rest)[44]? = some 0x01 ∧
      ∀ i, (blockBytes owner t amount m ++ rest)[46 + i]? = rest[i]? := by
  refine ⟨rfl, ?_, ?_, ?_, fun i ↦ ?_⟩
  · simp [blockBytes, owner.2]
  · simp [blockBytes, List.getElem?_append, owner.2]
  · simp [blockBytes, List.getElem?_append, owner.2, amount.2]
  · rw [List.getElem?_append_right (by rw [blockBytes_length]; omega), blockBytes_length,
      Nat.add_sub_cancel_left]

/-- A block is located exactly in a program of one of the two builds. -/
theorem locate_eq_some_iff {program : Bytes} {b : StateBlock} :
    locateStateBlock program = some b ↔ b.start = (opening b.guarded).length ∧
      ∃ owner t amount m rest, program = frame b.guarded (blockBytes owner t amount m) rest := by
  constructor
  · intro h
    unfold locateStateBlock at h
    split at h
    · rename_i hg
      obtain ⟨hlen, h0, h1, h34, h36, h45, h47⟩ := hg
      obtain rfl := Option.some.inj h
      obtain ⟨x, q, rfl⟩ := List.exists_cons_of_length_pos (by omega : 0 < program.length)
      obtain rfl : x = 0x6b := Option.some.inj h0
      obtain ⟨owner, t, amount, m, rest, rfl⟩ := exists_block
        (by rw [List.length_cons] at hlen; omega) h1 h34 h36 h45
      have hclose : rest[0]? = some 0x6c := by
        rw [← (block_getElem owner t amount m rest).2.2.2.2 0]
        exact h47
      cases rest with
      | nil => cases hclose
      | cons y rest =>
          obtain rfl : y = 0x6c := Option.some.inj hclose
          exact ⟨rfl, owner, t, amount, m, rest, rfl⟩
    · split at h
      · rename_i hu
        obtain ⟨hlen, h0, h33, h35, h44⟩ := hu
        obtain rfl := Option.some.inj h
        obtain ⟨owner, t, amount, m, rest, rfl⟩ := exists_block hlen h0 h33 h35 h44
        exact ⟨rfl, owner, t, amount, m, rest, rfl⟩
      · cases h
  · rintro ⟨hstart, owner, t, amount, m, rest, rfl⟩
    obtain ⟨start, guarded⟩ := b
    cases guarded with
    | true =>
        obtain ⟨h0, h33, h35, h44, hrest⟩ := block_getElem owner t amount m (0x6c :: rest)
        obtain rfl : start = 1 := hstart
        unfold locateStateBlock
        refine if_pos ⟨?_, rfl, h0, h33, h35, h44, hrest 0⟩
        simp only [frame, opening, closing, if_true, List.length_append, List.length_cons,
          List.length_nil, blockBytes_length]
        omega
    | false =>
        obtain ⟨h0, h33, h35, h44, hrest⟩ := block_getElem owner t amount m rest
        obtain rfl : start = 0 := hstart
        have hlen : 46 ≤ (frame false (blockBytes owner t amount m) rest).length := by
          simp only [frame, opening, closing, Bool.false_eq_true, if_false, List.length_append,
            List.length_nil, blockBytes_length]
          omega
        unfold locateStateBlock
        rw [if_neg, if_pos ⟨hlen, h0, h33, h35, h44⟩]
        rintro ⟨-, h, -⟩
        cases h0.symm.trans h

theorem locate_frame (guarded : Bool) (owner : Bytes32) (t : UInt8) (amount : Bytes8)
    (m : UInt8) (rest : Bytes) :
    locateStateBlock (frame guarded (blockBytes owner t amount m) rest) =
      some ⟨(opening guarded).length, guarded⟩ :=
  locate_eq_some_iff.mpr ⟨rfl, owner, t, amount, m, rest, rfl⟩

/-! ## Reading and writing the four fields -/

section Fields

variable (guarded : Bool) (owner : Bytes32) (t : UInt8) (amount : Bytes8) (m : UInt8)
  (rest : Bytes)

theorem frame_owner : frame guarded (blockBytes owner t amount m) rest =
    (opening guarded ++ [0x20]) ++ owner.val ++
      (0x01 :: t :: 0x08 :: (amount.val ++ [0x01, m]) ++ (closing guarded ++ rest)) := by
  simp [frame, blockBytes]

theorem frame_type : frame guarded (blockBytes owner t amount m) rest =
    (opening guarded ++ 0x20 :: (owner.val ++ [0x01])) ++ [t] ++
      (0x08 :: (amount.val ++ [0x01, m]) ++ (closing guarded ++ rest)) := by
  simp [frame, blockBytes]

theorem frame_amount : frame guarded (blockBytes owner t amount m) rest =
    (opening guarded ++ 0x20 :: (owner.val ++ [0x01, t, 0x08])) ++ amount.val ++
      ([0x01, m] ++ (closing guarded ++ rest)) := by
  simp [frame, blockBytes]

theorem frame_minter : frame guarded (blockBytes owner t amount m) rest =
    (opening guarded ++ 0x20 :: (owner.val ++ 0x01 :: t :: 0x08 :: (amount.val ++ [0x01]))) ++
      [m] ++ (closing guarded ++ rest) := by
  simp [frame, blockBytes]

end Fields

theorem slice_middle {p pre x post : Bytes} (start : Nat) (hp : p = pre ++ x ++ post)
    (hstart : start = pre.length) : slice p start x.length = some x := by
  subst hp hstart
  rw [slice, if_pos (by simp only [List.length_append]; omega), List.append_assoc,
    List.drop_left, List.take_left]

theorem getElem_middle {p pre post : Bytes} {y : UInt8} {i : Nat} (hp : p = pre ++ [y] ++ post)
    (hi : i = pre.length) : p[i]? = some y := by
  subst hp hi
  rw [List.append_assoc, List.getElem?_append_right le_rfl, Nat.sub_self]
  rfl

theorem overwrite_middle {p pre x post y : Bytes} {start : Nat} (hp : p = pre ++ x ++ post)
    (hstart : start = pre.length) (hlen : y.length = x.length) :
    overwrite p start y = pre ++ y ++ post := by
  subst hp hstart
  rw [overwrite, hlen, ← List.length_append, List.drop_left, List.append_assoc pre x post,
    List.take_left]

/-- The state read from a located block. -/
theorem decodeStateBlock_frame (guarded : Bool) (owner : Bytes32) (t : UInt8)
    (amount : Bytes8) (m : UInt8) (rest : Bytes) :
    decodeStateBlock (frame guarded (blockBytes owner t amount m) rest) =
      some ⟨owner, t, amount.val, [m]⟩ := by
  have howner := slice_middle ((opening guarded).length + 1)
    (frame_owner guarded owner t amount m rest) (by simp)
  have htype := getElem_middle (i := (opening guarded).length + 34)
    (frame_type guarded owner t amount m rest) (by simp [owner.2])
  have hamount := slice_middle ((opening guarded).length + 36)
    (frame_amount guarded owner t amount m rest) (by simp [owner.2])
  have hminter := getElem_middle (i := (opening guarded).length + 45)
    (frame_minter guarded owner t amount m rest) (by simp [owner.2, amount.2])
  rw [owner.2] at howner
  rw [amount.2] at hamount
  simp only [decodeStateBlock, locate_frame, howner, htype, hamount, hminter, Option.bind_eq_bind,
    Option.bind_some, toBytes32, owner.2, dif_pos]
  rfl

/-- Splicing replaces the four fields and nothing else. -/
theorem splice_frame (guarded : Bool) (owner : Bytes32) (t : UInt8) (amount : Bytes8)
    (m : UInt8) (rest : Bytes) (owner' : Bytes32) (t' : UInt8) (amount' : Bytes8)
    (m' : UInt8) :
    spliceTokenState (frame guarded (blockBytes owner t amount m) rest) owner' t' amount' m' =
      some (frame guarded (blockBytes owner' t' amount' m') rest) := by
  simp only [spliceTokenState, locate_frame, Option.map_some, Option.some.injEq]
  rw [overwrite_middle (frame_owner guarded owner t amount m rest) (by simp)
    (owner'.2.trans owner.2.symm), ← frame_owner guarded owner' t amount m rest]
  rw [overwrite_middle (y := [t']) (frame_type guarded owner' t amount m rest)
    (by simp [owner'.2]) rfl, ← frame_type guarded owner' t' amount m rest]
  rw [overwrite_middle (frame_amount guarded owner' t' amount m rest) (by simp [owner'.2])
    (amount'.2.trans amount.2.symm), ← frame_amount guarded owner' t' amount' m rest]
  rw [overwrite_middle (y := [m']) (frame_minter guarded owner' t' amount' m rest)
    (by simp [owner'.2, amount'.2]) rfl, ← frame_minter guarded owner' t' amount' m' rest]

/-- What splicing gives is a program with the state in its block. -/
theorem splice_eq_frame {program candidate : Bytes} {owner : Bytes32} {t : UInt8}
    {amount : Bytes8} {m : UInt8}
    (h : spliceTokenState program owner t amount m = some candidate) :
    ∃ guarded rest, candidate = frame guarded (blockBytes owner t amount m) rest := by
  obtain ⟨b, hb, -⟩ := Option.map_eq_some_iff.mp h
  obtain ⟨-, owner₀, t₀, amount₀, m₀, rest, rfl⟩ := locate_eq_some_iff.mp hb
  rw [splice_frame, Option.some.injEq] at h
  exact ⟨b.guarded, rest, h.symm⟩

/-! ## What the skeletons of the token read -/

/-- A skeleton of a token build: the opening guard, and the four slots. -/
structure Skeleton.Framed (sk : Skeleton) : Prop where
  items : ∃ rest, sk.items = .op 0x6b :: .slot "owner_identifier" :: .slot "identifier_type" ::
    .slot "amount" :: .slot "is_minter" :: rest
  params : sk.paramOrder = ["owner_identifier", "identifier_type", "amount", "is_minter"]

/-- A registry whose token skeletons open with the state block, as those derived
from the three observed builds do. -/
structure Registry.TokensFramed (registry : Registry) : Prop where
  skeletons : ∀ sk ∈ registry.skeletons, sk.name = tokenTemplate → sk.Framed
  repeats : ∀ sk ∈ registry.repeats, sk.name ≠ tokenTemplate

/-- Matching an item keeps the values it found. -/
theorem matchSkelItem_slots {item : SkelItem} {inst : Instruction} {values values' : SlotValues}
    (h : matchSkelItem item inst values = some values') : values <+: values' := by
  cases item with
  | op opcode =>
      simp only [matchSkelItem] at h
      split at h
      · rw [Option.some.inj h]
      · cases h
  | constPush value raw =>
      simp only [matchSkelItem] at h
      split at h
      · rw [Option.some.inj h]
      · cases h
  | slot label =>
      simp only [matchSkelItem] at h
      split at h
      · cases h
      · split at h
        · split at h
          · rw [Option.some.inj h]
          · cases h
        · rw [← Option.some.inj h]
          exact List.prefix_append _ _

theorem matchItems_prefix {items : List SkelItem} {insts : List Instruction}
    {values values' : SlotValues} (h : matchItems items insts values = some values') :
    values <+: values' := by
  induction items generalizing insts values with
  | nil =>
      have hnil : matchItems [] insts values = some values := by cases insts <;> rfl
      rw [Option.some.inj (hnil.symm.trans h)]
  | cons item items ih =>
      cases insts with
      | nil => rw [Option.some.inj h]
      | cons inst insts =>
          rw [matchItems, Option.bind_eq_some_iff] at h
          obtain ⟨mid, hmid, h⟩ := h
          exact (matchSkelItem_slots hmid).trans (ih h)

/-- The first five instructions of a guarded program. -/
theorem disassemble_guarded (owner : Bytes32) (t : UInt8) (amount : Bytes8) (m : UInt8)
    (rest : Bytes) :
    ∃ tail, (disassemble (frame true (blockBytes owner t amount m) rest)).1 =
      ⟨0, 0x6b, none⟩ :: ⟨1, 0x20, some owner.val⟩ :: ⟨34, 0x01, some [t]⟩ ::
        ⟨36, 0x08, some amount.val⟩ :: ⟨45, 0x01, some [m]⟩ :: tail := by
  have hlen : (frame true (blockBytes owner t amount m) rest).length =
      (rest.length + 43) + 5 := by
    simp only [frame, opening, closing, if_true, List.length_append, blockBytes_length,
      List.length_cons, List.length_nil]
    omega
  have hframe : frame true (blockBytes owner t amount m) rest =
      0x6b :: 0x20 :: (owner.val ++ 0x01 :: ([t] ++ 0x08 :: (amount.val ++
        0x01 :: ([m] ++ 0x6c :: rest)))) := by
    simp [frame, opening, closing, blockBytes]
  rw [disassemble, hlen, hframe]
  rw [disassembleFrom_op rfl, disassembleFrom_push (by decide) owner.2,
    disassembleFrom_push (by decide) rfl, disassembleFrom_push (by decide) amount.2,
    disassembleFrom_push (by decide) rfl, owner.2, amount.2]
  exact ⟨_, rfl⟩

/-- The first instruction of a program with no guard. -/
theorem disassemble_unguarded (owner : Bytes32) (t : UInt8) (amount : Bytes8) (m : UInt8)
    (rest : Bytes) :
    ∃ tail, (disassemble (frame false (blockBytes owner t amount m) rest)).1 =
      ⟨0, 0x20, some owner.val⟩ :: tail := by
  have hlen : (frame false (blockBytes owner t amount m) rest).length =
      (rest.length + 45) + 1 := by
    simp only [frame, opening, closing, Bool.false_eq_true, if_false, List.length_append,
      blockBytes_length, List.length_nil]
    omega
  have hframe : frame false (blockBytes owner t amount m) rest =
      0x20 :: (owner.val ++ (0x01 :: t :: 0x08 :: (amount.val ++ [0x01, m]) ++ rest)) := by
    simp [frame, opening, closing, blockBytes]
  rw [disassemble, hlen, hframe, disassembleFrom_push (by decide) owner.2]
  exact ⟨_, rfl⟩

/-- A token skeleton that matches a guarded program reads the state block. -/
theorem Skeleton.Framed.reads {sk : Skeleton} (h : sk.Framed) {owner : Bytes32} {t : UInt8}
    {amount : Bytes8} {m : UInt8} {rest : Bytes} {fields : List Field}
    (hmatch : sk.matchScript (disassemble (frame true (blockBytes owner t amount m) rest)).1 =
      some fields) :
    stateOfFields fields = some ⟨owner, t, amount.val, [m]⟩ := by
  obtain ⟨items, hitems⟩ := h.items
  obtain ⟨tail, htail⟩ := disassemble_guarded owner t amount m rest
  rw [Skeleton.matchScript, htail] at hmatch
  split at hmatch
  · cases hmatch
  · obtain ⟨values, hvalues, rfl⟩ := Option.map_eq_some_iff.mp hmatch
    rw [hitems] at hvalues
    have hprefix : [("owner_identifier", owner.val), ("identifier_type", [t]),
        ("amount", amount.val), ("is_minter", [m])] <+: values := by
      have htail : matchItems items tail [("owner_identifier", owner.val),
          ("identifier_type", [t]), ("amount", amount.val), ("is_minter", [m])] = some values := by
        rw [← hvalues]
        rfl
      exact matchItems_prefix htail
    obtain ⟨more, rfl⟩ := hprefix
    rw [h.params]
    simp [stateOfFields, fieldsInOrder, fieldNamed, toBytes32, owner.2]

/-- A framed skeleton matches no program without the guard. -/
theorem Skeleton.Framed.no_match {sk : Skeleton} (h : sk.Framed) {inst : Instruction}
    {tail : List Instruction} (hinst : inst.opcode ≠ 0x6b) :
    sk.matchScript (inst :: tail) = none := by
  obtain ⟨items, hitems⟩ := h.items
  rw [Skeleton.matchScript, hitems]
  split
  · rfl
  · rw [matchItems, matchSkelItem, if_neg]
    · rfl
    · simp [hinst]

/-- A program with a state block decodes to the state in it, registered or not. -/
theorem decodeTokenState_frame {registry : Registry} (h : registry.TokensFramed)
    (version : Nat) (guarded : Bool) (owner : Bytes32) (t : UInt8) (amount : Bytes8)
    (m : UInt8) (rest : Bytes) :
    decodeTokenState registry version (frame guarded (blockBytes owner t amount m) rest) =
      some ⟨owner, t, amount.val, [m]⟩ := by
  unfold decodeTokenState
  dsimp only
  split
  · rename_i htemplate
    obtain ⟨sk, hmem, hname, hmatch⟩ := decode_template htemplate (by decide) (by decide)
      h.repeats
    cases guarded with
    | true => exact (h.skeletons sk hmem hname).reads hmatch
    | false =>
        obtain ⟨tail, htail⟩ := disassemble_unguarded owner t amount m rest
        have htag : (0x20 : UInt8) ≠ 0x6b := by decide
        rw [htail, (h.skeletons sk hmem hname).no_match htag] at hmatch
        cases hmatch
  · exact decodeStateBlock_frame guarded owner t amount m rest

end Kascov
