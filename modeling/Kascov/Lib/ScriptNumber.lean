import Kascov.Lib.LittleEndian
import Mathlib.Data.Int.Order.Basic
import Mathlib.Tactic.Linarith

/-!
# Script numbers

Little-endian sign and magnitude: the high bit of the last byte is the sign, and a
byte of its own carries it where the magnitude needs that bit.  Every integer has one
minimal encoding.
-/

namespace ScriptNumber

open LittleEndian

/-! ## The sign bit -/

/-- A byte with its high bit set. -/
def signed (b : UInt8) : UInt8 := b ||| 0x80

/-- A byte with its high bit cleared. -/
def unsigned (b : UInt8) : UInt8 := b &&& 0x7f

/-- Whether the high bit is set. -/
def high (b : UInt8) : Bool := b &&& 0x80 ≠ 0

theorem bits_ofNat : ∀ n : Fin 256,
    (signed (UInt8.ofNat n)).toNat = (if n.val < 128 then n.val + 128 else n.val) ∧
      (unsigned (UInt8.ofNat n)).toNat = n.val % 128 ∧
      (high (UInt8.ofNat n) = true ↔ 128 ≤ n.val) := by
  decide +kernel

theorem signed_toNat (b : UInt8) :
    (signed b).toNat = if b.toNat < 128 then b.toNat + 128 else b.toNat := by
  have h := (bits_ofNat ⟨b.toNat, b.toNat_lt⟩).1
  rwa [UInt8.ofNat_toNat] at h

theorem unsigned_toNat (b : UInt8) : (unsigned b).toNat = b.toNat % 128 := by
  have h := (bits_ofNat ⟨b.toNat, b.toNat_lt⟩).2.1
  rwa [UInt8.ofNat_toNat] at h

theorem high_iff (b : UInt8) : high b = true ↔ 128 ≤ b.toNat := by
  have h := (bits_ofNat ⟨b.toNat, b.toNat_lt⟩).2.2
  rwa [UInt8.ofNat_toNat] at h

theorem unsigned_signed {b : UInt8} (h : high b = false) : unsigned (signed b) = b := by
  have hlt : ¬128 ≤ b.toNat := fun hge ↦ by
    rw [(high_iff b).mpr hge] at h
    cases h
  refine UInt8.toNat_inj.mp ?_
  rw [unsigned_toNat, signed_toNat, if_pos (not_le.mp hlt)]
  omega

theorem high_signed (b : UInt8) : high (signed b) = true := by
  rw [high_iff, signed_toNat]
  split
  · omega
  · omega

theorem unsigned_of_low {b : UInt8} (h : high b = false) : unsigned b = b := by
  have hlt : ¬128 ≤ b.toNat := fun hge ↦ by
    rw [(high_iff b).mpr hge] at h
    cases h
  refine UInt8.toNat_inj.mp ?_
  rw [unsigned_toNat]
  omega

theorem signed_unsigned {b : UInt8} (h : high b = true) : signed (unsigned b) = b := by
  have hge := (high_iff b).mp h
  have hlt := b.toNat_lt
  refine UInt8.toNat_inj.mp ?_
  rw [signed_toNat, unsigned_toNat, if_pos (Nat.mod_lt _ (by decide))]
  omega

theorem high_unsigned (b : UInt8) : high (unsigned b) = false := by
  rw [Bool.eq_false_iff, ne_eq, high_iff, unsigned_toNat, not_le]
  exact Nat.mod_lt _ (by decide)

/-! ## The codec -/

/-- The magnitude with a byte of its own for the sign, where its last byte needs it. -/
def guarded (bytes : List UInt8) : List UInt8 :=
  match bytes.getLast? with
  | some last => if high last then bytes ++ [0] else bytes
  | none => bytes

/-- The last byte with the sign set. -/
def setSign (bytes : List UInt8) : List UInt8 :=
  match bytes.getLast? with
  | some last => bytes.dropLast ++ [signed last]
  | none => bytes

/-- The last byte with the sign cleared. -/
def clearSign (bytes : List UInt8) : List UInt8 :=
  match bytes.getLast? with
  | some last => bytes.dropLast ++ [unsigned last]
  | none => bytes

/-- Whether the sign is set. -/
def negative (bytes : List UInt8) : Bool :=
  match bytes.getLast? with
  | some last => high last
  | none => false

/-- The script number of an integer. -/
def encode (v : Int) : List UInt8 :=
  if v < 0 then setSign (guarded (digits v.natAbs)) else guarded (digits v.natAbs)

/-- The integer a script number spells, minimal or not. -/
def decode (bytes : List UInt8) : Int :=
  match bytes.getLast? with
  | none => 0
  | some last =>
      let magnitude : Nat := value (bytes.dropLast ++ [unsigned last])
      if high last then -magnitude else magnitude

/-- The last byte is needed: it holds a bit of the magnitude, or keeps the sign apart
from the bit below it. -/
def Minimal (bytes : List UInt8) : Prop :=
  ∀ head last, bytes = head ++ [last] → unsigned last = 0 →
    ∃ last', head.getLast? = some last' ∧ high last' = true

/-! ## Round trips -/

theorem getLast?_concat (head : List UInt8) (last : UInt8) :
    (head ++ [last]).getLast? = some last := by simp

theorem setSign_concat (head : List UInt8) (last : UInt8) :
    setSign (head ++ [last]) = head ++ [signed last] := by
  rw [setSign, getLast?_concat]
  simp

theorem clearSign_concat (head : List UInt8) (last : UInt8) :
    clearSign (head ++ [last]) = head ++ [unsigned last] := by
  rw [clearSign, getLast?_concat]
  simp

theorem negative_concat (head : List UInt8) (last : UInt8) :
    negative (head ++ [last]) = high last := by
  rw [negative, getLast?_concat]

theorem value_clear_lt (head : List UInt8) (last : UInt8) :
    value (head ++ [unsigned last]) < 2 ^ (8 * head.length + 7) := by
  have hlast : value [unsigned last] ≤ 127 := by
    rw [value_cons, value_nil, unsigned_toNat]
    omega
  have hhead := value_lt head
  have hpow : 256 ^ head.length = 2 ^ (8 * head.length) := by rw [Nat.pow_mul]
  have hmul := Nat.mul_le_mul_left (256 ^ head.length) hlast
  rw [value_append, Nat.pow_add, ← hpow]
  omega

theorem decode_concat (head : List UInt8) (last : UInt8) :
    decode (head ++ [last]) =
      if high last then -(value (head ++ [unsigned last]) : Int)
      else value (head ++ [unsigned last]) := by
  rw [decode, getLast?_concat]
  simp

theorem natAbs_decode_concat (head : List UInt8) (last : UInt8) :
    (decode (head ++ [last])).natAbs = value (head ++ [unsigned last]) := by
  rw [decode_concat]
  split
  · rw [Int.natAbs_neg, Int.natAbs_natCast]
  · rw [Int.natAbs_natCast]

theorem negative_eq_true {bytes : List UInt8} :
    negative bytes = true ↔ ∃ last, bytes.getLast? = some last ∧ high last = true := by
  unfold negative
  cases bytes.getLast? with
  | none => simp
  | some last => simp

theorem minimal_concat {head : List UInt8} {last : UInt8} :
    Minimal (head ++ [last]) ↔ ¬(unsigned last = 0 ∧ ¬negative head = true) := by
  constructor
  · rintro h ⟨hzero, hhead⟩
    exact hhead (negative_eq_true.mpr (h head last rfl hzero))
  · intro h head' last' hbytes hzero
    obtain ⟨rfl, hlast⟩ := List.append_inj' hbytes rfl
    obtain rfl := List.singleton_inj.mp hlast
    exact negative_eq_true.mp (by_contra fun hhead ↦ h ⟨hzero, hhead⟩)

/-- The guarded digits of a number that is not zero: the sign bit is free, the bytes
spell the number, and the last is needed. -/
theorem guarded_digits {n : Nat} (hn : n ≠ 0) : ∃ head last,
    guarded (digits n) = head ++ [last] ∧ high last = false ∧ value (head ++ [last]) = n ∧
      (last = 0 → ∃ last', head.getLast? = some last' ∧ high last' = true) := by
  have hne : digits n ≠ [] := fun h ↦ hn (digits_eq_nil_iff.mp h)
  have hvalue := value_digits n
  have hlast := digits_getLast_ne_zero hne
  obtain ⟨head, last, hdigits⟩ : ∃ head last, digits n = head ++ [last] :=
    ⟨_, _, (List.dropLast_append_getLast hne).symm⟩
  have hzero : last ≠ 0 := by
    simp only [hdigits, List.getLast_append_singleton] at hlast
    exact hlast
  rw [hdigits] at hvalue ⊢
  unfold guarded
  rw [getLast?_concat]
  dsimp only
  cases hhigh : high last with
  | true =>
      refine ⟨head ++ [last], 0, rfl, by decide, ?_, fun _ ↦ ⟨last, by simp, hhigh⟩⟩
      rw [value_append, hvalue]
      simp
  | false => exact ⟨head, last, rfl, hhigh, hvalue, fun h ↦ absurd h hzero⟩

theorem encode_zero : encode 0 = [] := by
  have hnil : digits 0 = [] := digits_eq_nil_iff.mpr rfl
  rw [encode, if_neg (lt_irrefl 0), Int.natAbs_zero, hnil]
  rfl

theorem length_setSign (bytes : List UInt8) : (setSign bytes).length = bytes.length := by
  rcases List.eq_nil_or_concat bytes with rfl | ⟨head, last, rfl⟩
  · rfl
  · rw [List.concat_eq_append, setSign_concat, List.length_append, List.length_append]
    rfl

/-- A number of so many bytes has an encoding of one more at most. -/
theorem length_encode_le {v : Int} {n : Nat} (h : v.natAbs < 256 ^ n) :
    (encode v).length ≤ n + 1 := by
  have hdigits : (digits v.natAbs).length ≤ n := by
    rw [digits, List.length_map]
    exact (Nat.digits_length_le_iff (by decide) _).mpr h
  have hguarded : (guarded (digits v.natAbs)).length ≤ n + 1 := by
    unfold guarded
    split
    · split
      · rw [List.length_append, List.length_singleton]
        omega
      · omega
    · omega
  unfold encode
  split
  · rwa [length_setSign]
  · exact hguarded

theorem encode_natCast (n : Nat) : encode n = guarded (digits n) := by
  rw [encode, if_neg (not_lt.mpr (Int.natCast_nonneg n)), Int.natAbs_natCast]

/-- A positive number has so many bytes exactly when its bits and a sign bit fit them. -/
theorem length_encode_le_iff {n k : Nat} (hn : n ≠ 0) :
    (encode n).length ≤ k + 1 ↔ n < 2 ^ (8 * k + 7) := by
  obtain ⟨head, last, hguarded, hlow, hvalue, hneeded⟩ := guarded_digits hn
  rw [encode_natCast, hguarded, List.length_append, List.length_singleton,
    Nat.add_le_add_iff_right]
  constructor
  · intro hle
    have hlt := value_clear_lt head last
    rw [unsigned_of_low hlow, hvalue] at hlt
    exact hlt.trans_le (Nat.pow_le_pow_right (by decide) (by omega))
  · intro hlt
    by_contra hlong
    -- the last byte, or the high one that it guards, holds the highest bit
    have hfloor : 256 ^ head.length ≤ 2 * n := by
      rw [← hvalue]
      by_cases hzero : last = 0
      · obtain ⟨last', hlast', hhigh⟩ := hneeded hzero
        obtain ⟨head', rfl⟩ := List.getLast?_eq_some_iff.mp hlast'
        have hbyte := (high_iff last').mp hhigh
        have hmul := Nat.mul_le_mul_left (256 ^ head'.length) hbyte
        rw [value_append, value_append, value_cons, value_nil, Nat.mul_zero, Nat.add_zero,
          List.length_append, List.length_singleton, Nat.pow_succ]
        omega
      · have hbyte : 1 ≤ last.toNat :=
          Nat.one_le_iff_ne_zero.mpr fun h ↦ hzero (UInt8.toNat_inj.mp h)
        have hmul := Nat.mul_le_mul_left (256 ^ head.length) hbyte
        rw [value_append, value_cons, value_nil, Nat.mul_zero, Nat.add_zero]
        omega
    have hpow : 2 ^ (8 * k + 8) ≤ 256 ^ head.length := by
      rw [show 256 = 2 ^ 8 from rfl, ← Nat.pow_mul]
      exact Nat.pow_le_pow_right (by decide) (by omega)
    rw [Nat.pow_succ] at hpow
    omega

theorem decode_encode (v : Int) : decode (encode v) = v := by
  by_cases hv : v = 0
  · rw [hv, encode_zero]
    rfl
  · obtain ⟨head, last, hguarded, hlow, hvalue, -⟩ := guarded_digits (Int.natAbs_ne_zero.mpr hv)
    unfold encode
    split
    · rename_i hneg
      rw [hguarded, setSign_concat, decode_concat, high_signed, unsigned_signed hlow, hvalue]
      simp only [if_true]
      omega
    · rename_i hneg
      rw [hguarded, decode_concat, hlow, unsigned_of_low hlow, hvalue]
      simp only [Bool.false_eq_true, if_false]
      omega

theorem encode_minimal (v : Int) : Minimal (encode v) := by
  intro head last hbytes hzero
  by_cases hv : v = 0
  · rw [hv, encode_zero] at hbytes
    simp at hbytes
  · obtain ⟨head', last', hguarded, hlow, -, hneeded⟩ :=
      guarded_digits (Int.natAbs_ne_zero.mpr hv)
    unfold encode at hbytes
    rw [hguarded] at hbytes
    split at hbytes
    · rw [setSign_concat] at hbytes
      obtain ⟨rfl, hlast⟩ := List.append_inj' hbytes rfl
      obtain rfl := List.singleton_inj.mp hlast
      rw [unsigned_signed hlow] at hzero
      exact hneeded hzero
    · obtain ⟨rfl, hlast⟩ := List.append_inj' hbytes rfl
      obtain rfl := List.singleton_inj.mp hlast
      rw [unsigned_of_low hlow] at hzero
      exact hneeded hzero

/-- The guarded digits of what minimal bytes spell without their sign. -/
theorem guarded_value {head : List UInt8} {last : UInt8} (hlow : high last = false)
    (hneeded : last = 0 → ∃ last', head.getLast? = some last' ∧ high last' = true) :
    guarded (digits (value (head ++ [last]))) = head ++ [last] := by
  by_cases hzero : last = 0
  · obtain ⟨last', hlast, hhigh⟩ := hneeded hzero
    have hhead : value (head ++ [last]) = value head := by
      rw [value_append, hzero]
      simp
    rw [hhead, digits_value, guarded, hlast]
    · dsimp only
      rw [if_pos hhigh, hzero]
    · intro hne heq
      rw [List.getLast?_eq_some_getLast hne, heq] at hlast
      obtain rfl := Option.some.inj hlast
      exact absurd hhigh (by decide)
  · rw [digits_value, guarded, getLast?_concat]
    · dsimp only
      rw [if_neg (by rw [hlow]; exact Bool.false_ne_true)]
    · intro hne
      rwa [List.getLast_append_singleton]

theorem value_pos_of_minimal {head : List UInt8} {last : UInt8}
    (hneeded : last = 0 → ∃ last', head.getLast? = some last' ∧ high last' = true) :
    value (head ++ [last]) ≠ 0 := by
  intro hvalue
  rw [value_append] at hvalue
  have hpow : 0 < 256 ^ head.length := by positivity
  have hlast : last = 0 := by
    refine UInt8.toNat_inj.mp ?_
    have hmul : 256 ^ head.length * value [last] = 0 := by omega
    rcases Nat.mul_eq_zero.mp hmul with h | h
    · omega
    · simpa using h
  obtain ⟨last', hlast', hhigh⟩ := hneeded hlast
  obtain ⟨init, rfl⟩ := List.getLast?_eq_some_iff.mp hlast'
  rw [value_append] at hvalue
  have hge := (high_iff last').mp hhigh
  have hpow' : 0 < 256 ^ init.length := by positivity
  have hmul : 256 ^ init.length * value [last'] = 0 := by omega
  rcases Nat.mul_eq_zero.mp hmul with h | h
  · omega
  · have : last'.toNat = 0 := by simpa using h
    omega

theorem encode_decode {bytes : List UInt8} (h : Minimal bytes) : encode (decode bytes) = bytes := by
  rcases List.eq_nil_or_concat bytes with rfl | ⟨head, last, rfl⟩
  · exact encode_zero
  · rw [List.concat_eq_append] at h ⊢
    have hneeded := h head last rfl
    have hguarded := guarded_value (high_unsigned last) hneeded
    have hpos := value_pos_of_minimal hneeded
    rw [decode_concat]
    cases hhigh : high last with
    | true =>
        simp only [if_true]
        rw [encode, if_pos (by omega), Int.natAbs_neg, Int.natAbs_natCast, hguarded,
          setSign_concat, signed_unsigned hhigh]
    | false =>
        simp only [Bool.false_eq_true, if_false]
        rw [encode, if_neg (by omega), Int.natAbs_natCast, hguarded, unsigned_of_low hhigh]

end ScriptNumber
