import Kascov.Kcc1.State
import Kascov.Web.Cell

/-!
# Recognising token programs

Three readers of the state that a token program opens with: the recogniser of
`kcc1.rs`, which decodes declared fields, the locator of `kcc20.rs`, and the trade
page.  They accept the same programs and read the same fields, and a splice by any of
them is a program that all of them read.
-/

namespace Kascov

open LittleEndian ScriptNumber PrefixCodec

/-- `template_hash`, for a hash function. -/
def templateHash (hash32 : Bytes → Bytes32) (head suffix : Bytes) : Bytes32 :=
  hash32 (fixed 8 head.length ++ head ++ fixed 8 suffix.length ++ suffix)

/-- `kcc1_template_hash`. -/
def kcc1TemplateHash (hash32 : Bytes → Bytes32) (program : Bytes) : Option Bytes32 :=
  (locateStateBlock program).map fun b ↦
    templateHash hash32 (program.take b.start) (program.drop (b.start + 46))

/-- `KCC0020_STATE_TYPES`. -/
def kcc0020StateTypes : List FieldType := [.fixedBytes 32, .byte, .int, .bool]

structure Kcc0020State where
  ownerIdentifier : Bytes32
  identifierType : UInt8
  amount : I64
  isMinter : Bool
  templateHash : Bytes32
deriving DecidableEq

/-- Where the state starts, by the first byte: an opened guard must close after the
block. -/
def stateStart (program : Bytes) : Option Nat :=
  match program with
  | [] => none
  | first :: _ =>
      if first = 0x6b then
        if program[47]? = some 0x6c then some 1 else none
      else some 0

/-- `recognize_kcc0020`. -/
def recognizeKcc0020 (hash32 : Bytes → Bytes32) (program : Bytes) : Option Kcc0020State :=
  match stateStart program with
  | none => none
  | some start =>
      match slice program start 46 with
      | none => none
      | some state =>
          if program.length ≤ start + 46 + start then none
          else
            match decodeState kcc0020StateTypes state with
            | some [.bytes owner, .bytes idType, .int amount, .bool isMinter] =>
                if amount.val < 0 then none
                else
                  match toBytes32 owner, idType.head? with
                  | some ownerIdentifier, some identifierType =>
                      some {
                        ownerIdentifier, identifierType, amount, isMinter,
                        templateHash := templateHash hash32 (program.take start)
                          (program.drop (start + 46))
                      }
                  | _, _ => none
            | _ => none

/-! ## The declared fields are the block -/

/-- A flag as its byte. -/
def flagByte (b : Bool) : UInt8 := if b then 1 else 0

theorem pushExplicit_short {payload : Bytes} (hpos : 0 < payload.length)
    (hle : payload.length ≤ 75) : pushExplicit payload = UInt8.ofNat payload.length :: payload := by
  rw [pushExplicit, if_neg (List.length_pos_iff.mp hpos), lengthPrefix, if_pos hle]
  rfl

/-- The encoding of four fields is their block. -/
theorem encodeState_block {owner : Bytes32} {t : UInt8} {amount : Bytes8} {v : I64}
    (hamount : encodeStateInt v = some amount) (isMinter : Bool) :
    encodeState (kcc0020StateTypes.zip [.bytes owner.val, .bytes [t], .int v, .bool isMinter]) =
      some (blockBytes owner t amount (flagByte isMinter)) := by
  have howner : pushExplicit owner.val = 0x20 :: owner.val := by
    rw [pushExplicit_short (by rw [owner.2]; decide) (by rw [owner.2]; decide), owner.2]
    rfl
  have height : pushExplicit amount.val = 0x08 :: amount.val := by
    rw [pushExplicit_short (by rw [amount.2]; decide) (by rw [amount.2]; decide), amount.2]
    rfl
  have hone : ∀ b : UInt8, pushExplicit [b] = [0x01, b] := fun _ ↦ rfl
  simp only [kcc0020StateTypes, List.zip_cons_cons, List.zip_nil_right, encodeState, statePayload,
    FieldType.admits, owner.2, beq_self_eq_true, if_true, List.length_singleton, hamount,
    Option.map_some, howner, height, hone]
  rfl

theorem encodeState_payload {fields : List (FieldType × StateValue)} {encoded : Bytes}
    (h : encodeState fields = some encoded) :
    ∀ f ∈ fields, ∃ payload, statePayload f.1 f.2 = some payload := by
  induction fields generalizing encoded with
  | nil => exact fun _ hf ↦ absurd hf List.not_mem_nil
  | cons f fields ih =>
      rw [encodeState] at h
      split at h
      · cases h
      · rename_i payload hpayload
        obtain ⟨rest, hrest, -⟩ := Option.map_eq_some_iff.mp h
        exact List.forall_mem_cons.mpr ⟨⟨payload, hpayload⟩, ih hrest⟩

theorem admits_of_payload {ty : FieldType} {b payload : Bytes}
    (h : (if ty.admits b then some b else none) = some payload) :
    ty.admits b = true ∧ b = payload := by
  split at h
  · rename_i hadmits
    exact ⟨hadmits, Option.some.inj h⟩
  · cases h

theorem payload_fixedBytes {n : Nat} {v : StateValue} {payload : Bytes}
    (h : statePayload (.fixedBytes n) v = some payload) :
    v = .bytes payload ∧ payload.length = n := by
  cases v with
  | int w => cases h
  | bool b => cases h
  | bytes b =>
      obtain ⟨hadmits, rfl⟩ := admits_of_payload h
      exact ⟨rfl, beq_iff_eq.mp hadmits⟩

theorem payload_byte {v : StateValue} {payload : Bytes} (h : statePayload .byte v = some payload) :
    v = .bytes payload ∧ payload.length = 1 := by
  cases v with
  | int w => cases h
  | bool b => cases h
  | bytes b =>
      obtain ⟨hadmits, rfl⟩ := admits_of_payload h
      exact ⟨rfl, beq_iff_eq.mp hadmits⟩

theorem payload_int {v : StateValue} {payload : Bytes} (h : statePayload .int v = some payload) :
    ∃ w amount, v = .int w ∧ encodeStateInt w = some amount ∧ payload = amount.val := by
  cases v with
  | int w =>
      obtain ⟨amount, hamount, rfl⟩ := Option.map_eq_some_iff.mp h
      exact ⟨w, amount, rfl, hamount, rfl⟩
  | bool b => cases h
  | bytes b =>
      have hnone : none = some payload := h
      cases hnone

theorem payload_bool {v : StateValue} {payload : Bytes} (h : statePayload .bool v = some payload) :
    ∃ b, v = .bool b ∧ payload.length = 1 := by
  cases v with
  | int w => cases h
  | bool b =>
      rw [← Option.some.inj h]
      exact ⟨b, rfl, rfl⟩
  | bytes b =>
      have hnone : none = some payload := h
      cases hnone

theorem exists_four {α : Type} {values : List α} (h : values.length = 4) :
    ∃ v1 v2 v3 v4, values = [v1, v2, v3, v4] := by
  obtain ⟨v1, values, rfl⟩ := List.exists_cons_of_length_eq_add_one h
  obtain ⟨v2, v3, v4, rfl⟩ := List.length_eq_three.mp (Nat.succ.inj h)
  exact ⟨v1, v2, v3, v4, rfl⟩

/-- The block is read as its four fields, and nothing else is. -/
theorem decodeState_block {state : Bytes} {values : List StateValue} :
    decodeState kcc0020StateTypes state = some values ↔
      ∃ owner t amount v isMinter, state = blockBytes owner t amount (flagByte isMinter) ∧
        decodeStateInt amount = some v ∧
          values = [.bytes owner.val, .bytes [t], .int v, .bool isMinter] := by
  constructor
  · intro h
    obtain ⟨hlen, hencode⟩ := encodeState_decodeState h
    obtain ⟨v1, v2, v3, v4, rfl⟩ := exists_four hlen
    obtain ⟨⟨owner, howner⟩, ⟨idType, hidType⟩, ⟨_, hint⟩, ⟨_, hbool⟩⟩ :
        (∃ p, statePayload (.fixedBytes 32) v1 = some p) ∧ (∃ p, statePayload .byte v2 = some p) ∧
          (∃ p, statePayload .int v3 = some p) ∧ ∃ p, statePayload .bool v4 = some p := by
      have hpayload := encodeState_payload hencode
      exact ⟨hpayload _ (.head _), hpayload _ (.tail _ (.head _)),
        hpayload _ (.tail _ (.tail _ (.head _))),
        hpayload _ (.tail _ (.tail _ (.tail _ (.head _))))⟩
    obtain ⟨rfl, hlen32⟩ := payload_fixedBytes howner
    obtain ⟨rfl, hlen1⟩ := payload_byte hidType
    obtain ⟨v, amount, rfl, hamount, -⟩ := payload_int hint
    obtain ⟨isMinter, rfl, -⟩ := payload_bool hbool
    obtain ⟨t, rfl⟩ := List.length_eq_one_iff.mp hlen1
    rw [@encodeState_block ⟨owner, hlen32⟩ _ _ _ hamount] at hencode
    exact ⟨⟨owner, hlen32⟩, t, amount, v, isMinter, (Option.some.inj hencode).symm,
      stateInt_inverse.mp hamount, rfl⟩
  · rintro ⟨owner, t, amount, v, isMinter, rfl, hamount, rfl⟩
    have hencode := @encodeState_block owner t _ _ (stateInt_inverse.mpr hamount)
      isMinter
    refine decodeState_encodeState ?_ hencode
    intro f hf payload hpayload
    have hle : payload.length ≤ 32 := by
      simp only [kcc0020StateTypes, List.zip_cons_cons, List.zip_nil_right, List.mem_cons,
        List.not_mem_nil, or_false] at hf
      rcases hf with rfl | rfl | rfl | rfl
      · exact (payload_fixedBytes hpayload).2.le
      · exact (payload_byte hpayload).2.le.trans (by decide)
      · obtain ⟨-, bytes, -, -, rfl⟩ := payload_int hpayload
        exact bytes.2.le.trans (by decide)
      · obtain ⟨-, -, hlen⟩ := payload_bool hpayload
        exact hlen.le.trans (by decide)
    exact hle.trans_lt (by decide)

/-! ## What the recogniser accepts -/

/-- Where a state starts that is followed by what its guard asks. -/
theorem frame_of_stateStart {program : Bytes} {start : Nat} (h : stateStart program = some start)
    (hlen : ¬program.length ≤ start + 46 + start) :
    ∃ guarded rest, start = (opening guarded).length ∧ rest ≠ [] ∧
      program = frame guarded ((program.drop start).take 46) rest := by
  cases program with
  | nil => cases h
  | cons first tail =>
      simp only [stateStart] at h
      split at h
      · rename_i hfirst
        split at h
        · rename_i hclose
          obtain rfl := Option.some.inj h
          have hdrop : (tail.drop 46)[0]? = some 0x6c := by
            rw [List.getElem?_drop]
            exact hclose
          obtain ⟨y, rest, hrest⟩ : ∃ y rest, tail.drop 46 = y :: rest := by
            cases hcases : tail.drop 46 with
            | nil =>
                rw [hcases] at hdrop
                cases hdrop
            | cons y rest => exact ⟨y, rest, rfl⟩
          obtain rfl : y = 0x6c := by
            rw [hrest] at hdrop
            exact Option.some.inj hdrop
          have hlength := congrArg List.length hrest
          rw [List.length_drop, List.length_cons] at hlength
          rw [List.length_cons] at hlen
          refine ⟨true, rest, rfl, ?_, ?_⟩
          · rintro rfl
            rw [List.length_nil] at hlength
            omega
          · have happend : tail = tail.take 46 ++ 0x6c :: rest := by
              rw [← hrest, List.take_append_drop]
            rw [hfirst]
            exact congrArg (0x6b :: ·) happend
        · cases h
      · obtain rfl := Option.some.inj h
        refine ⟨false, (first :: tail).drop 46, rfl, ?_, ?_⟩
        · intro hnil
          exact hlen (List.drop_eq_nil_iff.mp hnil)
        · exact (List.take_append_drop 46 (first :: tail)).symm

theorem stateStart_frame (guarded : Bool) (owner : Bytes32) (t : UInt8) (amount : Bytes8)
    (m : UInt8) (rest : Bytes) :
    stateStart (frame guarded (blockBytes owner t amount m) rest) =
      some (opening guarded).length := by
  cases guarded with
  | true =>
      have hclose := (block_getElem owner t amount m (0x6c :: rest)).2.2.2.2 0
      exact if_pos hclose
  | false => rfl

theorem slice_frame (guarded : Bool) (owner : Bytes32) (t : UInt8) (amount : Bytes8)
    (m : UInt8) (rest : Bytes) :
    slice (frame guarded (blockBytes owner t amount m) rest) (opening guarded).length 46 =
      some (blockBytes owner t amount m) := by
  have h := slice_middle (p := frame guarded (blockBytes owner t amount m) rest)
    (opening guarded).length rfl rfl
  rwa [blockBytes_length] at h

/-- What surrounds the block of a framed program. -/
theorem frame_sides (guarded : Bool) (owner : Bytes32) (t : UInt8) (amount : Bytes8)
    (m : UInt8) (rest : Bytes) :
    (frame guarded (blockBytes owner t amount m) rest).take (opening guarded).length =
        opening guarded ∧
      (frame guarded (blockBytes owner t amount m) rest).drop ((opening guarded).length + 46) =
        closing guarded ++ rest := by
  constructor
  · rw [frame, List.append_assoc, List.take_left]
  · rw [frame, ← blockBytes_length owner t amount m, ← List.length_append, List.drop_left]

theorem length_frame (guarded : Bool) (owner : Bytes32) (t : UInt8) (amount : Bytes8)
    (m : UInt8) (rest : Bytes) :
    (frame guarded (blockBytes owner t amount m) rest).length =
      (opening guarded).length + 46 + (opening guarded).length + rest.length := by
  cases guarded with
  | true =>
      simp only [frame, opening, closing, if_true, List.length_append, List.length_singleton,
        blockBytes_length]
      omega
  | false =>
      simp only [frame, opening, closing, Bool.false_eq_true, if_false, List.length_append,
        List.length_nil, blockBytes_length]
      omega

theorem recognize_eq_some {hash32 : Bytes → Bytes32} {program : Bytes} {k : Kcc0020State} :
    recognizeKcc0020 hash32 program = some k ↔ ∃ guarded owner t amount v isMinter rest,
      program = frame guarded (blockBytes owner t amount (flagByte isMinter)) rest ∧
        rest ≠ [] ∧ decodeStateInt amount = some v ∧ 0 ≤ v.val ∧
          k = ⟨owner, t, v, isMinter,
            templateHash hash32 (opening guarded) (closing guarded ++ rest)⟩ := by
  constructor
  · intro h
    unfold recognizeKcc0020 at h
    split at h
    · cases h
    · rename_i start hstart
      split at h
      · cases h
      · rename_i state hstate
        split at h
        · cases h
        · rename_i hlen
          obtain ⟨guarded, rest, rfl, hrest, hframe⟩ := frame_of_stateStart hstart hlen
          have hblock : (program.drop (opening guarded).length).take 46 = state := by
            unfold slice at hstate
            split at hstate
            · exact Option.some.inj hstate
            · cases hstate
          rw [hblock] at hframe
          split at h
          · rename_i owner idType amount isMinter hdecode
            obtain ⟨owner', t, bytes, v, flag, rfl, hv, hvalues⟩ := decodeState_block.mp hdecode
            simp only [List.cons.injEq, StateValue.bytes.injEq, StateValue.int.injEq,
              StateValue.bool.injEq, and_true] at hvalues
            obtain ⟨rfl, rfl, rfl, rfl⟩ := hvalues
            subst hframe
            split at h
            · cases h
            · rename_i hsign
              rw [toBytes32, dif_pos owner'.2] at h
              obtain rfl := Option.some.inj h
              obtain ⟨htake, hdrop⟩ := frame_sides guarded owner' t bytes (flagByte isMinter) rest
              refine ⟨guarded, owner', t, bytes, amount, isMinter, rest, rfl, hrest, hv,
                not_lt.mp hsign, ?_⟩
              rw [htake, hdrop]
          · cases h
  · rintro ⟨guarded, owner, t, amount, v, isMinter, rest, rfl, hrest, hv, hsign, rfl⟩
    have hdecode := decodeState_block.mpr ⟨owner, t, amount, v, isMinter, rfl, hv, rfl⟩
    obtain ⟨htake, hdrop⟩ := frame_sides guarded owner t amount (flagByte isMinter) rest
    have hpos := List.length_pos_iff.mpr hrest
    have hlen : ¬(frame guarded (blockBytes owner t amount (flagByte isMinter)) rest).length ≤
        (opening guarded).length + 46 + (opening guarded).length := by
      rw [length_frame]
      omega
    rw [recognizeKcc0020, stateStart_frame]
    simp only [slice_frame, if_neg hlen, hdecode, if_neg (not_lt.mpr hsign), toBytes32, owner.2,
      dif_pos, List.head?_cons, htake, hdrop]

/-! ## The sign and the flag -/

/-- An amount that is not negative is one whose sign bit is clear. -/
theorem decodeStateInt_nonneg {amount : Bytes8} {v : I64} :
    decodeStateInt amount = some v ∧ 0 ≤ v.val ↔
      negative amount.val = false ∧ v.val = value amount.val := by
  obtain ⟨head, last, hbytes, hlen⟩ := exists_concat_of_eight amount
  have hlt := value_clear_lt head last
  rw [hlen] at hlt
  unfold decodeStateInt
  simp only [hbytes, negative_concat, clearSign_concat]
  cases hhigh : high last with
  | true =>
      simp only [if_true, Bool.true_eq_false, false_and, iff_false, not_and]
      intro h
      split at h
      · cases h
      · have hv := toI64_eq_some.mp h
        omega
  | false =>
      simp only [Bool.false_eq_true, if_false, true_and]
      rw [unsigned_of_low hhigh, toI64_eq_some]
      omega

theorem amountI64_of_nonneg {amount : Bytes8} {v : I64} (hv : decodeStateInt amount = some v)
    (hsign : 0 ≤ v.val) {st : TokenState} (hst : st.amountRaw = amount.val) :
    st.amountI64 = some v.val := by
  have hvalue := (decodeStateInt_nonneg.mp ⟨hv, hsign⟩).2
  have hlt := v.2.2
  unfold TokenState.amountI64
  rw [hst, if_pos amount.2]
  change (if value amount.val < 2 ^ 63 then some ((value amount.val : Nat) : Int) else none) = _
  rw [if_pos (by omega), hvalue]

theorem isMinter_flagByte {st : TokenState} {isMinter : Bool}
    (hst : st.minterRaw = [flagByte isMinter]) : st.isMinter = some isMinter := by
  unfold TokenState.isMinter
  rw [hst]
  cases isMinter with
  | true => rfl
  | false => rfl

/-- The last byte of the amount, in a framed program. -/
theorem frame_sign (guarded : Bool) (owner : Bytes32) (t : UInt8) (amount : Bytes8) (m : UInt8)
    (rest : Bytes) :
    ((frame guarded (blockBytes owner t amount m) rest)[(opening guarded).length + 43]?).map high =
      some (negative amount.val) := by
  obtain ⟨head, last, hbytes, hlen⟩ := exists_concat_of_eight amount
  have hsplit : frame guarded (blockBytes owner t amount m) rest =
      (opening guarded ++ 0x20 :: (owner.val ++ 0x01 :: t :: 0x08 :: head)) ++ [last] ++
        ([0x01, m] ++ (closing guarded ++ rest)) := by
    rw [frame_amount, hbytes]
    simp
  have hget := getElem_middle (i := (opening guarded).length + 43) hsplit
    (by simp [owner.2, hlen])
  rw [hget, hbytes, negative_concat]
  rfl

theorem frame_flag (guarded : Bool) (owner : Bytes32) (t : UInt8) (amount : Bytes8) (m : UInt8)
    (rest : Bytes) :
    (frame guarded (blockBytes owner t amount m) rest)[(opening guarded).length + 45]? = some m :=
  getElem_middle (frame_minter guarded owner t amount m rest) (by simp [owner.2, amount.2])

/-! ## What a splice changes -/

theorem length_overwrite {p bytes : Bytes} {start : Nat} (h : start + bytes.length ≤ p.length) :
    (overwrite p start bytes).length = p.length := by
  simp only [overwrite, List.length_append, List.length_take, List.length_drop]
  omega

theorem overwrite_getElem {p bytes : Bytes} {start i : Nat} (h : start + bytes.length ≤ p.length)
    (hi : i < start ∨ start + bytes.length ≤ i) : (overwrite p start bytes)[i]? = p[i]? := by
  have htake : (p.take start ++ bytes).length = start + bytes.length := by
    rw [List.length_append, List.length_take, Nat.min_eq_left (by omega)]
  rw [overwrite]
  rcases hi with hlow | hhigh
  · rw [List.getElem?_append_left (by omega), List.getElem?_append_left (by
      rw [List.length_take]
      omega), List.getElem?_take_of_lt hlow]
  · rw [List.getElem?_append_right (by omega), htake, List.getElem?_drop]
    congr 1
    omega

/-- The bytes of the four fields. -/
def StateBlock.InField (b : StateBlock) (i : Nat) : Prop :=
  b.start + 1 ≤ i ∧ i < b.start + 33 ∨ i = b.start + 34 ∨
    b.start + 36 ≤ i ∧ i < b.start + 44 ∨ i = b.start + 45

/-- A located program is long enough for its block. -/
theorem locate_length {program : Bytes} {b : StateBlock} (h : locateStateBlock program = some b) :
    b.start + 46 + (closing b.guarded).length ≤ program.length := by
  obtain ⟨hstart, owner, t, amount, m, rest, rfl⟩ := locate_eq_some_iff.mp h
  have hclosing : (closing b.guarded).length = (opening b.guarded).length := by
    cases b.guarded with
    | true => rfl
    | false => rfl
  rw [length_frame, hstart, hclosing]
  omega

theorem splice_outside {program candidate : Bytes} {b : StateBlock} {owner : Bytes32} {t : UInt8}
    {amount : Bytes8} {m : UInt8} (hloc : locateStateBlock program = some b)
    (h : spliceTokenState program owner t amount m = some candidate) :
    candidate.length = program.length ∧
      ∀ i, ¬b.InField i → candidate[i]? = program[i]? := by
  have hlen := locate_length hloc
  have howner := owner.2
  have hamount := amount.2
  unfold spliceTokenState at h
  rw [hloc] at h
  obtain rfl := Option.some.inj h
  dsimp only
  have h1 : (overwrite program (b.start + 1) owner.val).length = program.length :=
    length_overwrite (by omega)
  have h2 : (overwrite (overwrite program (b.start + 1) owner.val) (b.start + 34) [t]).length =
      program.length := by
    rw [length_overwrite (by rw [h1, List.length_singleton]; omega), h1]
  have h3 : (overwrite (overwrite (overwrite program (b.start + 1) owner.val) (b.start + 34) [t])
      (b.start + 36) amount.val).length = program.length := by
    rw [length_overwrite (by rw [h2]; omega), h2]
  constructor
  · rw [length_overwrite (by rw [h3, List.length_singleton]; omega), h3]
  · intro i hi
    unfold StateBlock.InField at hi
    rw [overwrite_getElem (by rw [h3, List.length_singleton]; omega)
        (by rw [List.length_singleton]; omega),
      overwrite_getElem (by rw [h2]; omega) (by omega),
      overwrite_getElem (by rw [h1, List.length_singleton]; omega)
        (by rw [List.length_singleton]; omega),
      overwrite_getElem (by omega) (by omega)]

/-! ## The law of the recognisers -/

theorem kcc1TemplateHash_frame (hash32 : Bytes → Bytes32) (guarded : Bool) (owner : Bytes32)
    (t : UInt8) (amount : Bytes8) (m : UInt8) (rest : Bytes) :
    kcc1TemplateHash hash32 (frame guarded (blockBytes owner t amount m) rest) =
      some (templateHash hash32 (opening guarded) (closing guarded ++ rest)) := by
  obtain ⟨htake, hdrop⟩ := frame_sides guarded owner t amount m rest
  rw [kcc1TemplateHash, locate_frame, Option.map_some, htake, hdrop]

/-- The recognisers agree on a program and on what a splice makes of it. -/
structure RecognisersAgree (hash32 : Bytes → Bytes32) : Prop where
  accepts : ∀ p, (recognizeKcc0020 hash32 p).isSome = true ↔
    ∃ b, locateStateBlock p = some b ∧ (p[b.start + 43]?).map high = some false ∧
      (p[b.start + 45]? = some 0x00 ∨ p[b.start + 45]? = some 0x01) ∧
        b.start + 46 + (closing b.guarded).length < p.length
  reads : ∀ p k, recognizeKcc0020 hash32 p = some k → ∃ st, decodeStateBlock p = some st ∧
    st.owner = k.ownerIdentifier ∧ st.identifierType = k.identifierType ∧
      st.amountI64 = some k.amount.val ∧ st.isMinter = some k.isMinter ∧
        kcc1TemplateHash hash32 p = some k.templateHash
  text : ∀ p, toBytes (.text (toHex p)) = some p
  parses : ∀ arg p, toBytes arg = some p →
    (parseCellState arg).isSome = (locateStateBlock p).isSome ∧
      parseCellState arg = (decodeStateBlock p).map fun st ↦
        ⟨toHex st.owner.val, st.identifierType, value st.amountRaw, st.minterRaw.headD 0⟩
  splices : ∀ p b owner t amount m, locateStateBlock p = some b →
    ∃ p', spliceTokenState p owner t amount m = some p' ∧ locateStateBlock p' = some b ∧
      decodeStateBlock p' = some ⟨owner, t, amount.val, [m]⟩ ∧
        kcc1TemplateHash hash32 p' = kcc1TemplateHash hash32 p ∧ p'.length = p.length ∧
          ∀ i, ¬b.InField i → p'[i]? = p[i]?
  ports : ∀ arg ownerArg p owner (t : UInt8) (amount : Bytes8) (m : UInt8),
    toBytes arg = some p → toBytes ownerArg = some owner.val →
      spliceCellState arg ownerArg t.toNat (value amount.val) m.toNat =
        (spliceTokenState p owner t amount m).map toHex

theorem recognize_accepts {hash32 : Bytes → Bytes32} {p : Bytes} :
    (recognizeKcc0020 hash32 p).isSome = true ↔
      ∃ b, locateStateBlock p = some b ∧ (p[b.start + 43]?).map high = some false ∧
        (p[b.start + 45]? = some 0x00 ∨ p[b.start + 45]? = some 0x01) ∧
          b.start + 46 + (closing b.guarded).length < p.length := by
  have hclosing : ∀ guarded, (closing guarded).length = (opening guarded).length := by
    intro guarded
    cases guarded with
    | true => rfl
    | false => rfl
  constructor
  · intro h
    obtain ⟨k, hk⟩ := Option.isSome_iff_exists.mp h
    obtain ⟨guarded, owner, t, amount, v, isMinter, rest, rfl, hrest, hv, hsign, -⟩ :=
      recognize_eq_some.mp hk
    refine ⟨⟨(opening guarded).length, guarded⟩, locate_frame guarded owner t amount _ rest, ?_,
      ?_, ?_⟩
    · rw [frame_sign, (decodeStateInt_nonneg.mp ⟨hv, hsign⟩).1]
    · rw [frame_flag]
      cases isMinter with
      | true => exact .inr rfl
      | false => exact .inl rfl
    · have hpos := List.length_pos_iff.mpr hrest
      rw [length_frame, hclosing]
      dsimp only
      omega
  · rintro ⟨b, hloc, hhigh, hflag, hlen⟩
    obtain ⟨hstart, owner, t, amount, m, rest, rfl⟩ := locate_eq_some_iff.mp hloc
    rw [hstart, frame_sign, Option.some.injEq] at hhigh
    rw [hstart, frame_flag, Option.some.injEq, Option.some.injEq] at hflag
    rw [length_frame, hclosing, hstart] at hlen
    have hrest : rest ≠ [] := List.length_pos_iff.mp (by omega)
    have hlt : value amount.val < 2 ^ 63 := by
      obtain ⟨head, last, hbytes, hseven⟩ := exists_concat_of_eight amount
      have hclear := value_clear_lt head last
      rw [hbytes, negative_concat] at hhigh
      rw [hseven, unsigned_of_low hhigh] at hclear
      rwa [hbytes]
    obtain ⟨v, hv⟩ : ∃ v : I64, v.val = value amount.val :=
      ⟨⟨value amount.val, by omega, by omega⟩, rfl⟩
    obtain ⟨hdecode, hsign⟩ := decodeStateInt_nonneg.mpr ⟨hhigh, hv⟩
    obtain ⟨isMinter, rfl⟩ : ∃ isMinter, m = flagByte isMinter := by
      rcases hflag with rfl | rfl
      · exact ⟨false, rfl⟩
      · exact ⟨true, rfl⟩
    exact Option.isSome_iff_exists.mpr ⟨_, recognize_eq_some.mpr
      ⟨b.guarded, owner, t, amount, v, isMinter, rest, rfl, hrest, hdecode, hsign, rfl⟩⟩

theorem recognisers_agree (hash32 : Bytes → Bytes32) : RecognisersAgree hash32 where
  accepts _ := recognize_accepts
  reads p k h := by
    obtain ⟨guarded, owner, t, amount, v, isMinter, rest, rfl, -, hv, hsign, rfl⟩ :=
      recognize_eq_some.mp h
    exact ⟨_, decodeStateBlock_frame guarded owner t amount _ rest, rfl, rfl,
      amountI64_of_nonneg hv hsign rfl, isMinter_flagByte rfl,
      kcc1TemplateHash_frame hash32 guarded owner t amount _ rest⟩
  text := hexBytes_toHex
  parses arg p harg := by
    cases hloc : locateStateBlock p with
    | none =>
        rw [parseCellState_eq_none harg hloc, decodeStateBlock, hloc]
        exact ⟨rfl, rfl⟩
    | some b =>
        obtain ⟨-, owner, t, amount, m, rest, rfl⟩ := locate_eq_some_iff.mp hloc
        rw [parseCellState_frame harg, decodeStateBlock_frame]
        exact ⟨rfl, rfl⟩
  splices p b owner t amount m hloc := by
    obtain ⟨hstart, owner₀, t₀, amount₀, m₀, rest, hp⟩ := locate_eq_some_iff.mp hloc
    have hsplice := splice_frame b.guarded owner₀ t₀ amount₀ m₀ rest owner t amount m
    rw [← hp] at hsplice
    refine ⟨_, hsplice, locate_eq_some_iff.mpr ⟨hstart, owner, t, amount, m, rest, rfl⟩,
      decodeStateBlock_frame b.guarded owner t amount m rest, ?_, splice_outside hloc hsplice⟩
    rw [kcc1TemplateHash_frame, hp, kcc1TemplateHash_frame]
  ports arg ownerArg p owner t amount m harg howner := by
    have hlow : ∀ b : UInt8, lowByte b.toNat = b := by
      intro b
      have hb := b.toNat_lt
      have hmod : ((b.toNat : Int) % 2 ^ 8).toNat = b.toNat := by omega
      rw [lowByte, hmod, UInt8.ofNat_toNat]
    have hlt : value amount.val < 2 ^ 64 := by
      have hvalue := value_lt amount.val
      rw [amount.2] at hvalue
      exact hvalue
    have hfixed : fixed 8 (value amount.val) = amount.val := by
      have hfixed := fixed_value amount.val
      rwa [amount.2] at hfixed
    rw [spliceCellState_eq t.toNat m.toNat harg howner hlt, hlow, hlow]
    congr 2
    exact Subtype.ext hfixed

end Kascov
