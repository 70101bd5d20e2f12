import Kascov.Kcc1.Push
import Kascov.Lib.ScriptNumber
import Kascov.Market.Push
import Kascov.Token.State

/-!
# State blocks

The state of a program as its declared fields: each field has a payload of its type,
wrapped in an explicit push.  The integers of the state are eight bytes of sign and
magnitude, those of an invocation are minimal script numbers.
-/

namespace Kascov

open LittleEndian ScriptNumber PrefixCodec

/-! ## Integers -/

/-- An `i64`. -/
abbrev I64 := { v : Int // -2 ^ 63 ≤ v ∧ v < 2 ^ 63 }

/-- `i64::MIN`. -/
def I64.min : I64 := ⟨-2 ^ 63, by decide⟩

/-- `i64::try_from`. -/
def toI64 (v : Int) : Option I64 :=
  if h : -2 ^ 63 ≤ v ∧ v < 2 ^ 63 then some ⟨v, h⟩ else none

/-- The eight bytes of a magnitude, with the sign of a value. -/
def signedBytes (v : Int) : Bytes :=
  if v < 0 then setSign (fixed 8 v.natAbs) else fixed 8 v.natAbs

theorem signedBytes_length (v : Int) : (signedBytes v).length = 8 := by
  unfold signedBytes
  split
  · rw [length_setSign, length_fixed]
  · rw [length_fixed]

/-- `encode_state_int`. -/
def encodeStateInt (v : I64) : Option Bytes8 :=
  if v = I64.min then none else some ⟨signedBytes v.val, signedBytes_length v.val⟩

/-- `decode_state_int`: a sign over a zero magnitude is no integer. -/
def decodeStateInt (bytes : Bytes8) : Option I64 :=
  let magnitude : Nat := value (clearSign bytes.val)
  if negative bytes.val then
    if magnitude = 0 then none else toI64 (-magnitude)
  else toI64 magnitude

/-- `encode_arg_int`: the loop writes the digits of the magnitude. -/
def encodeArgInt (v : I64) : Option Bytes :=
  if v = I64.min then none else some (encode v.val)

/-- The magnitude of a script number: its bytes, less the sign bit. -/
def scriptMagnitude (head : Bytes) (last : UInt8) : Nat :=
  leNat head + 2 ^ (8 * head.length) * (last &&& 0x7f).toNat

/-- A last byte that carries only the sign shields the high bit before it. -/
def minimalNumber (bytes : Bytes) : Bool :=
  match bytes.getLast? with
  | none => true
  | some last => last &&& 0x7f ≠ 0 || bytes.dropLast.getLast?.any (· &&& 0x80 ≠ 0)

/-- `decode_arg_int`: the minimal script number in the range of an `i64`. -/
def decodeArgInt (bytes : Bytes) : Option Int :=
  match bytes.getLast? with
  | none => some 0
  | some last =>
      if !minimalNumber bytes then none
      else if 9 < bytes.length then none
      else
        let magnitude := scriptMagnitude bytes.dropLast last
        if magnitude < 2 ^ 63 then
          some (if last &&& 0x80 ≠ 0 then -(magnitude : Int) else magnitude)
        else none

/-! ## Fields -/

inductive FieldType where
  | int
  | bool
  | byte
  | bytes
  | string
  | pubKey
  | sig
  | dataSig
  | fixedBytes (n : Nat)
deriving DecidableEq

inductive StateValue where
  | int (v : I64)
  | bool (b : Bool)
  | bytes (b : Bytes)
deriving DecidableEq

/-- `str::from_utf8` accepts. -/
def isUtf8 (b : Bytes) : Bool := (ByteArray.mk b.toArray).validateUTF8

/-- The width and content that a type asks of its bytes. -/
def FieldType.admits (b : Bytes) : FieldType → Bool
  | .byte => b.length == 1
  | .bytes => true
  | .string => isUtf8 b
  | .pubKey => b.length == 32
  | .sig => b.length == 65
  | .dataSig => b.length == 64
  | .fixedBytes n => b.length == n
  | .int | .bool => false

/-- `state_payload`. -/
def statePayload (ty : FieldType) (v : StateValue) : Option Bytes :=
  match ty, v with
  | .int, .int v => (encodeStateInt v).map (·.val)
  | .bool, .bool b => some [if b then 1 else 0]
  | ty, .bytes b => if ty.admits b then some b else none
  | _, _ => none

/-- `encode_state`. -/
def encodeState : List (FieldType × StateValue) → Option Bytes
  | [] => some []
  | (ty, v) :: fields =>
      match statePayload ty v with
      | none => none
      | some payload => (encodeState fields).map (pushExplicit payload ++ ·)

/-- `try_into`, for eight bytes. -/
def toEight (b : Bytes) : Option Bytes8 := if h : b.length = 8 then some ⟨b, h⟩ else none

/-- `decode_payload`. -/
def decodePayload (ty : FieldType) (payload : Bytes) : Option StateValue :=
  match ty with
  | .int => ((toEight payload).bind decodeStateInt).map .int
  | .bool =>
      if payload = [0x00] then some (.bool false)
      else if payload = [0x01] then some (.bool true)
      else none
  | ty => (statePayload ty (.bytes payload)).map fun _ ↦ .bytes payload

/-- `decode_state`. -/
def decodeState : List FieldType → Bytes → Option (List StateValue)
  | [], encoded => if encoded = [] then some [] else none
  | ty :: types, encoded =>
      match readPushExplicit encoded with
      | none => none
      | some (payload, consumed) =>
          match decodePayload ty payload with
          | none => none
          | some v => (decodeState types (encoded.drop consumed)).map (v :: ·)

/-! ## The integer codecs -/

theorem toI64_eq_some {v : Int} {w : I64} : toI64 v = some w ↔ v = w.val := by
  unfold toI64
  split
  · rw [Option.some.injEq, Subtype.ext_iff]
  · rename_i hrange
    refine ⟨nofun, ?_⟩
    rintro rfl
    exact absurd w.2 hrange

theorem I64.natAbs_lt {v : I64} (h : v ≠ I64.min) : v.val.natAbs < 2 ^ 63 := by
  have hne : v.val ≠ -2 ^ 63 := fun heq ↦ h (Subtype.ext heq)
  have := v.2
  omega

/-- Eight bytes are seven and the last. -/
theorem exists_concat_of_eight (bytes : Bytes8) :
    ∃ head last, bytes.val = head ++ [last] ∧ head.length = 7 := by
  obtain ⟨bytes, hlen⟩ := bytes
  rcases List.eq_nil_or_concat bytes with rfl | ⟨head, last, rfl⟩
  · cases hlen
  · refine ⟨head, last, List.concat_eq_append, ?_⟩
    rw [List.concat_eq_append, List.length_append, List.length_singleton] at hlen
    omega

/-- The eight bytes of a magnitude leave the sign bit free. -/
theorem fixed_concat {n : Nat} (h : n < 2 ^ 63) : ∃ head last, fixed 8 n = head ++ [last] ∧
    high last = false ∧ value (head ++ [last]) = n := by
  obtain ⟨head, last, hfixed, hlen⟩ := exists_concat_of_eight ⟨fixed 8 n, length_fixed 8 n⟩
  dsimp only at hfixed
  have hvalue : value (head ++ [last]) = n := by
    rw [← hfixed]
    exact value_fixed (h.trans (by decide))
  refine ⟨head, last, hfixed, ?_, hvalue⟩
  rw [Bool.eq_false_iff, ne_eq, high_iff, not_le]
  rw [value_append, hlen, value_cons, value_nil] at hvalue
  omega

theorem stateInt_inverse {v : I64} {bytes : Bytes8} :
    encodeStateInt v = some bytes ↔ decodeStateInt bytes = some v := by
  constructor
  · intro h
    unfold encodeStateInt at h
    split at h
    · cases h
    · rename_i hmin
      obtain rfl := Option.some.inj h
      obtain ⟨head, last, hfixed, hlow, hvalue⟩ := fixed_concat (I64.natAbs_lt hmin)
      unfold decodeStateInt signedBytes
      by_cases hneg : v.val < 0
      · simp only [if_pos hneg, hfixed, setSign_concat, clearSign_concat, negative_concat,
          unsigned_signed hlow, high_signed, hvalue, if_true]
        rw [if_neg (by omega)]
        exact toI64_eq_some.mpr (by omega)
      · simp only [if_neg hneg, hfixed, clearSign_concat, negative_concat, unsigned_of_low hlow,
          hlow, hvalue, Bool.false_eq_true, if_false]
        exact toI64_eq_some.mpr (by omega)
  · intro h
    obtain ⟨head, last, hbytes, hlen⟩ := exists_concat_of_eight bytes
    have hlt := value_clear_lt head last
    rw [hlen] at hlt
    have hfixed : fixed 8 (value (head ++ [unsigned last])) = head ++ [unsigned last] := by
      have height : (head ++ [unsigned last]).length = 8 := by
        rw [List.length_append, hlen]
        rfl
      rw [← height]
      exact fixed_value _
    unfold decodeStateInt at h
    simp only [hbytes, clearSign_concat, negative_concat] at h
    cases hhigh : high last with
    | true =>
        rw [hhigh, if_pos rfl] at h
        split at h
        · cases h
        · rename_i hpos
          have hv := toI64_eq_some.mp h
          have hmin : v ≠ I64.min := by
            rintro rfl
            have : (I64.min).val = -2 ^ 63 := rfl
            omega
          rw [encodeStateInt, if_neg hmin]
          refine congrArg some (Subtype.ext ?_)
          dsimp only
          rw [signedBytes, if_pos (by omega), ← hv, Int.natAbs_neg, Int.natAbs_natCast, hfixed,
            setSign_concat, signed_unsigned hhigh, hbytes]
    | false =>
        rw [hhigh, if_neg Bool.false_ne_true] at h
        have hv := toI64_eq_some.mp h
        have hmin : v ≠ I64.min := by
          rintro rfl
          have : (I64.min).val = -2 ^ 63 := rfl
          omega
        rw [encodeStateInt, if_neg hmin]
        refine congrArg some (Subtype.ext ?_)
        dsimp only
        rw [signedBytes, if_neg (by omega), ← hv, Int.natAbs_natCast, hfixed,
          unsigned_of_low hhigh, hbytes]

theorem scriptMagnitude_value (head : Bytes) (last : UInt8) :
    scriptMagnitude head last = value (head ++ [unsigned last]) := by
  have hpow : 256 ^ head.length = 2 ^ (8 * head.length) := by rw [Nat.pow_mul]
  have hlast : value [unsigned last] = (last &&& 0x7f).toNat := rfl
  rw [value_append, hpow, hlast]
  rfl

theorem minimalNumber_concat {head : Bytes} {last : UInt8} :
    minimalNumber (head ++ [last]) = true ↔ Minimal (head ++ [last]) := by
  rw [minimal_concat, minimalNumber, getLast?_concat]
  dsimp only
  rw [List.dropLast_concat]
  have hnegative : head.getLast?.any (· &&& 0x80 ≠ 0) = negative head := by
    unfold negative
    cases head.getLast? with
    | none => rfl
    | some b => rfl
  rw [hnegative, Bool.or_eq_true, decide_eq_true_iff, not_and_or, not_not]
  rfl

theorem decodeArgInt_concat {head : Bytes} {last : UInt8} {n : Int} :
    decodeArgInt (head ++ [last]) = some n ↔ Minimal (head ++ [last]) ∧
      (head ++ [last]).length ≤ 9 ∧ (decode (head ++ [last])).natAbs < 2 ^ 63 ∧
        decode (head ++ [last]) = n := by
  rw [← minimalNumber_concat, natAbs_decode_concat, decode_concat]
  unfold decodeArgInt
  rw [getLast?_concat]
  dsimp only
  rw [List.dropLast_concat, scriptMagnitude_value]
  cases hminimal : minimalNumber (head ++ [last]) with
  | false => simp
  | true =>
      rw [Bool.not_true, if_neg Bool.false_ne_true]
      split
      · rename_i hlong
        exact ⟨nofun, fun h ↦ absurd h.2.1 (Nat.not_le.mpr hlong)⟩
      · rename_i hshort
        have hhigh : high last = true ↔ last &&& 0x80 ≠ 0 := by rw [high, decide_eq_true_iff]
        simp only [hhigh]
        split
        · rename_i hsmall
          rw [Option.some.injEq]
          exact ⟨fun h ↦ ⟨trivial, Nat.not_lt.mp hshort, hsmall, h⟩, fun h ↦ h.2.2.2⟩
        · rename_i hbig
          exact ⟨nofun, fun h ↦ absurd h.2.2.1 hbig⟩

theorem argInt_inverse {v : I64} {bytes : Bytes} :
    encodeArgInt v = some bytes ↔ decodeArgInt bytes = some v.val := by
  constructor
  · intro h
    unfold encodeArgInt at h
    split at h
    · cases h
    · rename_i hmin
      obtain rfl := Option.some.inj h
      have hlt := I64.natAbs_lt hmin
      have hshort : (encode v.val).length ≤ 9 := length_encode_le (hlt.trans (by decide))
      have hminimal := encode_minimal v.val
      have hdecode := decode_encode v.val
      rcases List.eq_nil_or_concat (encode v.val) with hnil | ⟨head, last, hconcat⟩
      · rw [hnil] at hdecode ⊢
        exact congrArg some hdecode
      · rw [List.concat_eq_append] at hconcat
        rw [hconcat] at hshort hminimal hdecode ⊢
        exact decodeArgInt_concat.mpr ⟨hminimal, hshort, by rwa [hdecode], hdecode⟩
  · intro h
    rcases List.eq_nil_or_concat bytes with rfl | ⟨head, last, rfl⟩
    · have hzero : v = ⟨0, by decide⟩ := Subtype.ext (Option.some.inj h).symm
      rw [hzero]
      exact congrArg some encode_zero
    · rw [List.concat_eq_append] at h ⊢
      obtain ⟨hminimal, -, hsmall, hdecode⟩ := decodeArgInt_concat.mp h
      have hmin : v ≠ I64.min := by
        rintro rfl
        rw [hdecode] at hsmall
        exact absurd hsmall (by decide)
      rw [encodeArgInt, if_neg hmin, ← hdecode, encode_decode hminimal]

/-- What is read of an argument is in the symmetric range. -/
theorem decodeArgInt_range {bytes : Bytes} {n : Int} (h : decodeArgInt bytes = some n) :
    n.natAbs < 2 ^ 63 := by
  rcases List.eq_nil_or_concat bytes with rfl | ⟨head, last, rfl⟩
  · rw [← Option.some.inj h]
    decide
  · rw [List.concat_eq_append] at h
    obtain ⟨-, -, hsmall, rfl⟩ := decodeArgInt_concat.mp h
    exact hsmall

/-! ## The codec of a block -/

theorem toEight_eq_some {b : Bytes} {bytes : Bytes8} : toEight b = some bytes ↔ b = bytes.val := by
  unfold toEight
  split
  · rw [Option.some.injEq, Subtype.ext_iff]
  · rename_i hlen
    refine ⟨nofun, ?_⟩
    rintro rfl
    exact absurd bytes.2 hlen

theorem intPayload_inverse {v : StateValue} {payload : Bytes} :
    statePayload .int v = some payload ↔ decodePayload .int payload = some v := by
  have hdecode : decodePayload .int payload = some v ↔
      ∃ bytes : Bytes8, payload = bytes.val ∧ ∃ w, decodeStateInt bytes = some w ∧ .int w = v := by
    simp only [decodePayload, Option.map_eq_some_iff, Option.bind_eq_some_iff, toEight_eq_some]
    constructor
    · rintro ⟨w, ⟨bytes, hbytes, hw⟩, hv⟩
      exact ⟨bytes, hbytes, w, hw, hv⟩
    · rintro ⟨bytes, hbytes, w, hw, hv⟩
      exact ⟨w, ⟨bytes, hbytes, hw⟩, hv⟩
  rw [hdecode]
  cases v with
  | int w =>
      simp only [statePayload, Option.map_eq_some_iff]
      constructor
      · rintro ⟨bytes, hbytes, rfl⟩
        exact ⟨bytes, rfl, w, stateInt_inverse.mp hbytes, rfl⟩
      · rintro ⟨bytes, rfl, w', hw, hv⟩
        obtain rfl := StateValue.int.inj hv
        exact ⟨bytes, stateInt_inverse.mpr hw, rfl⟩
  | bool b =>
      refine ⟨nofun, ?_⟩
      rintro ⟨-, -, w, -, hv⟩
      cases hv
  | bytes b =>
      refine ⟨nofun, ?_⟩
      rintro ⟨-, -, w, -, hv⟩
      cases hv

theorem boolPayload_inverse {v : StateValue} {payload : Bytes} :
    statePayload .bool v = some payload ↔ decodePayload .bool payload = some v := by
  simp only [decodePayload]
  constructor
  · intro h
    cases v with
    | int w => cases h
    | bool b =>
        obtain rfl := Option.some.inj h
        cases b with
        | true => rfl
        | false => rfl
    | bytes b => cases h
  · intro h
    split at h
    · rename_i hpayload
      obtain rfl := Option.some.inj h
      rw [hpayload]
      rfl
    · split at h
      · rename_i hpayload
        obtain rfl := Option.some.inj h
        rw [hpayload]
        rfl
      · cases h

/-- The payload of a value is read as the value, and no other payload is. -/
theorem payload_inverse {ty : FieldType} {v : StateValue} {payload : Bytes} :
    statePayload ty v = some payload ↔ decodePayload ty payload = some v := by
  have hbytes : (∀ b, statePayload ty (.bytes b) = if ty.admits b then some b else none) →
      (∀ w, statePayload ty (.int w) = none) → (∀ b, statePayload ty (.bool b) = none) →
      decodePayload ty payload = (statePayload ty (.bytes payload)).map (fun _ ↦ .bytes payload) →
      (statePayload ty v = some payload ↔ decodePayload ty payload = some v) := by
    intro hbytes hint hbool hdecode
    rw [hdecode, hbytes]
    cases v with
    | int w => simp [hint]
    | bool b => simp [hbool]
    | bytes b =>
        rw [hbytes]
        by_cases hadmits : ty.admits payload = true
        · rw [if_pos hadmits]
          constructor
          · intro h
            split at h
            · obtain rfl := Option.some.inj h
              rfl
            · cases h
          · intro h
            obtain rfl := StateValue.bytes.inj (Option.some.inj h)
            rw [if_pos hadmits]
        · rw [if_neg hadmits]
          refine ⟨fun h ↦ ?_, nofun⟩
          split at h
          · rename_i hb
            rw [Option.some.inj h] at hb
            exact absurd hb hadmits
          · cases h
  cases ty with
  | int => exact intPayload_inverse
  | bool => exact boolPayload_inverse
  | byte => exact hbytes (fun _ ↦ rfl) (fun _ ↦ rfl) (fun _ ↦ rfl) rfl
  | bytes => exact hbytes (fun _ ↦ rfl) (fun _ ↦ rfl) (fun _ ↦ rfl) rfl
  | string => exact hbytes (fun _ ↦ rfl) (fun _ ↦ rfl) (fun _ ↦ rfl) rfl
  | pubKey => exact hbytes (fun _ ↦ rfl) (fun _ ↦ rfl) (fun _ ↦ rfl) rfl
  | sig => exact hbytes (fun _ ↦ rfl) (fun _ ↦ rfl) (fun _ ↦ rfl) rfl
  | dataSig => exact hbytes (fun _ ↦ rfl) (fun _ ↦ rfl) (fun _ ↦ rfl) rfl
  | fixedBytes n => exact hbytes (fun _ ↦ rfl) (fun _ ↦ rfl) (fun _ ↦ rfl) rfl

theorem decodeState_encodeState {fields : List (FieldType × StateValue)} {encoded : Bytes}
    (hfits : ∀ f ∈ fields, ∀ payload, statePayload f.1 f.2 = some payload → Fits32 payload)
    (h : encodeState fields = some encoded) :
    decodeState (fields.map Prod.fst) encoded = some (fields.map Prod.snd) := by
  induction fields generalizing encoded with
  | nil =>
      obtain rfl := Option.some.inj h
      rfl
  | cons f fields ih =>
      obtain ⟨ty, v⟩ := f
      rw [encodeState] at h
      split at h
      · cases h
      · rename_i payload hpayload
        obtain ⟨rest, hrest, rfl⟩ := Option.map_eq_some_iff.mp h
        have hread := pushExplicit_exact.reads payload rest
          (hfits _ List.mem_cons_self payload hpayload)
        have htail := ih (fun f hf ↦ hfits f (List.mem_cons_of_mem _ hf)) hrest
        rw [List.map_cons, List.map_cons, decodeState, hread]
        dsimp only
        rw [payload_inverse.mp hpayload]
        dsimp only
        rw [List.drop_left, htail]
        rfl

theorem encodeState_decodeState {types : List FieldType} {encoded : Bytes}
    {values : List StateValue} (h : decodeState types encoded = some values) :
    values.length = types.length ∧ encodeState (types.zip values) = some encoded := by
  induction types generalizing encoded values with
  | nil =>
      rw [decodeState] at h
      split at h
      · rename_i hnil
        obtain rfl := Option.some.inj h
        exact ⟨rfl, by rw [hnil]; rfl⟩
      · cases h
  | cons ty types ih =>
      rw [decodeState] at h
      split at h
      · cases h
      · rename_i payload consumed hread
        split at h
        · cases h
        · rename_i v hpayload
          obtain ⟨rest, hrest, rfl⟩ := Option.map_eq_some_iff.mp h
          obtain ⟨-, tail, rfl, rfl⟩ := pushExplicit_exact.written _ _ _ hread
          rw [List.drop_left] at hrest
          obtain ⟨hlen, htail⟩ := ih hrest
          refine ⟨congrArg Nat.succ hlen, ?_⟩
          rw [List.zip_cons_cons, encodeState, payload_inverse.mpr hpayload]
          dsimp only
          rw [htail]
          rfl

/-! ## The law of the codec -/

/-- A writer and a reader of integers: mutually inverse, over every integer but the
least. -/
structure IntegerCodec {α : Type} (write : I64 → Option α) (read : α → Option Int) : Prop where
  inverse : ∀ (v : I64) a, write v = some a ↔ read a = some v.val
  ranged : ∀ a n, read a = some n → n.natAbs < 2 ^ 63
  rejects : ∀ v, write v = none ↔ v = I64.min

/-- A writer and a reader of one push: each value has one accepted encoding. -/
structure UniquePush (write : Bytes → Bytes) (read : Bytes → Option (Bytes × Nat)) : Prop where
  unique : ∀ value, Fits32 value → ∃! s, read s = some (value, s.length)
  reads : ∀ value rest, Fits32 value →
    read (write value ++ rest) = some (value, (write value).length)
  written : ∀ s value n, read s = some (value, n) → s.take n = write value

/-- The law of the state codec, with the two codecs under it. -/
structure StateCodecLaw : Prop where
  decodes : ∀ (fields : List (FieldType × StateValue)) encoded,
    (∀ f ∈ fields, ∀ payload, statePayload f.1 f.2 = some payload → payload.length < 2 ^ 32) →
      encodeState fields = some encoded →
        decodeState (fields.map Prod.fst) encoded = some (fields.map Prod.snd)
  encodes : ∀ types encoded values, decodeState types encoded = some values →
    values.length = types.length ∧ encodeState (types.zip values) = some encoded
  explicit : UniquePush pushExplicit readPushExplicit
  minimal : UniquePush encodePush readPushMinimal
  stateInt : IntegerCodec encodeStateInt fun bytes ↦ (decodeStateInt bytes).map (·.val)
  argInt : IntegerCodec encodeArgInt decodeArgInt

theorem uniquePush_of_exact {write : Bytes → Bytes} {read : Bytes → Option (Bytes × Nat)}
    (h : Exact write read Fits32) : UniquePush write read where
  unique value hfits :=
    ⟨write value, h.unique.mpr ⟨hfits, rfl⟩, fun _ hs ↦ (h.unique.mp hs).2⟩
  reads := h.reads
  written s value n hs := by
    obtain ⟨-, rest, rfl, rfl⟩ := h.written s value n hs
    exact List.take_left

theorem stateInt_codec :
    IntegerCodec encodeStateInt fun bytes ↦ (decodeStateInt bytes).map (·.val) where
  inverse v bytes := by
    rw [stateInt_inverse, Option.map_eq_some_iff]
    refine ⟨fun h ↦ ⟨v, h, rfl⟩, ?_⟩
    rintro ⟨w, hw, heq⟩
    rwa [← Subtype.ext heq]
  ranged bytes n h := by
    obtain ⟨w, hw, rfl⟩ := Option.map_eq_some_iff.mp h
    refine I64.natAbs_lt ?_
    rintro rfl
    have hmin := stateInt_inverse.mpr hw
    cases hmin
  rejects v := by simp [encodeStateInt]

theorem state_codec_law : StateCodecLaw where
  decodes _ _ hfits h := decodeState_encodeState hfits h
  encodes _ _ _ h := encodeState_decodeState h
  explicit := uniquePush_of_exact pushExplicit_exact
  minimal := uniquePush_of_exact encodePush_exact
  stateInt := stateInt_codec
  argInt := ⟨fun _ _ ↦ argInt_inverse, fun _ _ ↦ decodeArgInt_range, fun v ↦ by
    simp [encodeArgInt]⟩

end Kascov
