import Kascov.Lib.ScriptNumber
import Kascov.Web.Cell

/-!
# Script arguments in the browser

`curve.js`: how the trade builder pushes the arguments of a covenant, and how its check
before signing reads them back out of the script.  The reader works on numbers of the
language: a byte outside the array is undefined, a length of four bytes is signed, and a
place that is not a number ends the loop.
-/

namespace Kascov

open LittleEndian ScriptNumber

/-! ## Writing -/

/-- `scriptNumBytes`. -/
def scriptNumBytes (n : Int) : Bytes :=
  if n = 0 then []
  else
    let bytes := digits n.natAbs
    if bytes.getLast?.any high then bytes ++ [if n < 0 then 0x80 else 0x00]
    else if n < 0 then setSign bytes
    else bytes

/-- `pushData`. -/
def pushData (b : Bytes) : Bytes :=
  if b.length < 0x4c then UInt8.ofNat b.length :: b
  else if b.length ≤ 0xff then 0x4c :: (fixed 1 b.length ++ b)
  else if b.length ≤ 0xffff then 0x4d :: (fixed 2 b.length ++ b)
  else 0x4e :: (fixed 4 b.length ++ b)

/-- `pushNumber`. -/
def pushNumber (n : Int) : Bytes :=
  if n = 0 then [0x00]
  else if 1 ≤ n ∧ n ≤ 16 then [UInt8.ofNat (0x50 + n.toNat)]
  else pushData (scriptNumBytes n)

/-- `pushBytesMinimal`. -/
def pushBytesMinimal (b : Bytes) : Bytes :=
  match b with
  | [] => [0x00]
  | [x] =>
      if 1 ≤ x ∧ x ≤ 16 then [0x50 + x]
      else if x = 0x81 then [0x4f]
      else pushData b
  | _ => pushData b

/-! ## Reading -/

/-- An entry of `parseScriptPushes`: an opcode, undefined outside the array, or data. -/
inductive ScriptPush where
  | opcode (op : Option UInt8)
  | data (d : Bytes)
deriving DecidableEq

/-- `b[i]`. -/
def byteAt (b : Bytes) (i : Int) : Option UInt8 := if 0 ≤ i then b[i.toNat]? else none

/-- What `b[i]` is under the bit operators. -/
def bitsAt (b : Bytes) (i : Int) : Nat := ((byteAt b i).map UInt8.toNat).getD 0

/-- The signed 32 bits of a number that the bit operators give. -/
def toInt32 (n : Nat) : Int := (n : Int).bmod (2 ^ 32)

/-- An end of `slice`: from the end of the array where it is negative. -/
def sliceIndex (b : Bytes) (k : Int) : Nat :=
  if k < 0 then (b.length + k).toNat else min k.toNat b.length

/-- `b.slice(start, stop)`. -/
def arraySlice (b : Bytes) (start stop : Int) : Bytes :=
  (b.take (sliceIndex b stop)).drop (sliceIndex b start)

/-- Where the data of a push starts, and how long it is.  The bits that `|` joins are apart,
so it adds them. -/
def pushHeader (b : Bytes) (i : Int) (op : UInt8) : Option (Int × Option Int) :=
  if 0x01 ≤ op ∧ op ≤ 0x4b then some (i + 1, some op.toNat)
  else if op = 0x4c then some (i + 2, (byteAt b (i + 1)).map fun x ↦ (x.toNat : Int))
  else if op = 0x4d then
    some (i + 3, some (toInt32 (bitsAt b (i + 1) + 2 ^ 8 * bitsAt b (i + 2))))
  else if op = 0x4e then
    some (i + 5, some (toInt32 (bitsAt b (i + 1) + 2 ^ 8 * (bitsAt b (i + 2) +
      2 ^ 8 * (bitsAt b (i + 3) + 2 ^ 8 * bitsAt b (i + 4))))))
  else none

/-- One turn of `parseScriptPushes`: the entry, and the next place.  A place is undefined
after a length that is. -/
def parsePush (b : Bytes) (i : Int) : Except String (ScriptPush × Option Int) :=
  match byteAt b i with
  | none => .ok (.opcode none, some (i + 1))
  | some op =>
      match pushHeader b i op with
      | none => .ok (.opcode (some op), some (i + 1))
      -- no sum with an undefined length is above the length of the array
      | some (_, none) => .ok (.data [], none)
      | some (ds, some len) =>
          if b.length < ds + len then .error "curve: truncated push in signatureScript"
          else .ok (.data (arraySlice b ds (ds + len)), some (ds + len))

/-- The loop of `parseScriptPushes`, of so many turns at most. -/
def parsePushes (b : Bytes) : Nat → Option Int → Option (Except String (List ScriptPush))
  | _, none => some (.ok [])
  | 0, some i => if i < b.length then none else some (.ok [])
  | fuel + 1, some i =>
      if i < b.length then
        match parsePush b i with
        | .error e => some (.error e)
        | .ok (entry, next) => (parsePushes b fuel next).map (·.map (entry :: ·))
      else some (.ok [])

/-- `parseScriptPushes` comes to an end, and to this one. -/
def ParsesFrom (b : Bytes) (i : Option Int) (r : Except String (List ScriptPush)) : Prop :=
  ∃ fuel, parsePushes b fuel i = some r

/-- `parseScriptPushes` returns, or throws. -/
def ParsesTo (b : Bytes) (r : Except String (List ScriptPush)) : Prop := ParsesFrom b (some 0) r

/-- `argToBigInt`; nothing where it throws. -/
def argToBigInt : ScriptPush → Option Int
  | .opcode op =>
      if op = some 0x00 then some 0
      else
        match op with
        | some x => if 0x51 ≤ x ∧ x ≤ 0x60 then some (x.toNat - 0x50) else none
        | none => none
  | .data [] => some 0
  | .data d =>
      let v := value d
      let signBit := 2 ^ (8 * d.length - 1)
      some (if v &&& signBit ≠ 0 then -((v ^^^ signBit : Nat) : Int) else v)

/-- `argToBytes`; nothing where it throws. -/
def argToBytes : ScriptPush → Option Bytes
  | .data d => some d
  | .opcode (some x) =>
      if x = 0x00 then some []
      else if 0x51 ≤ x ∧ x ≤ 0x60 then some [x - 0x50]
      else none
  | .opcode none => none

/-! ## The curve program -/

structure CurveProgramState where
  tokenCovid : Text
  reserve : Nat
  graduated : Bool
deriving DecidableEq

/-- `CURVE_RESERVE_OFFSET`. -/
def curveReserveOffset : Nat := 37

/-- The check of `parseCurveState` and `nextCurveProgram`. -/
def isCurveProgram (p : Bytes) : Bool :=
  curveReserveOffset + 8 ≤ p.length && p.head? == some 0x6b

/-- `parseCurveState`. -/
def parseCurveState (program : BytesArg) : Option CurveProgramState := do
  let p ← toBytes program
  if isCurveProgram p then
    let reserve ← readU64LE p curveReserveOffset
    return { tokenCovid := toHex (byteRange p 4 36), reserve, graduated := p[2]? ≠ some 0x00 }
  else none

/-- `nextCurveProgram`. -/
def nextCurveProgram (parentProgram : BytesArg) (newReserve : Int) : Option Text := do
  let p ← toBytes parentProgram
  if isCurveProgram p then
    let reserve ← u64LE newReserve
    return toHex (overwrite p curveReserveOffset reserve)
  else none

/-! ## Numbers -/

theorem scriptNumBytes_eq (n : Int) : scriptNumBytes n = encode n := by
  by_cases hn : n = 0
  · rw [scriptNumBytes, if_pos hn, hn, encode_zero]
  · have hne : digits n.natAbs ≠ [] := fun h ↦
      (Int.natAbs_ne_zero.mpr hn) (digits_eq_nil_iff.mp h)
    obtain ⟨head, last, hdigits⟩ : ∃ head last, digits n.natAbs = head ++ [last] :=
      ⟨_, _, (List.dropLast_append_getLast hne).symm⟩
    rw [scriptNumBytes, if_neg hn, encode]
    dsimp only
    rw [hdigits, guarded, getLast?_concat, Option.any_some]
    dsimp only
    cases hhigh : high last with
    | true =>
        rw [if_pos rfl, if_pos rfl, setSign_concat]
        by_cases hneg : n < 0
        · rw [if_pos hneg, if_pos hneg]
          rfl
        · rw [if_neg hneg, if_neg hneg]
    | false => rfl

/-- The sign bit on top of a magnitude that leaves it free. -/
theorem and_xor_signBit {k w : Nat} (hw : w < 2 ^ k) :
    w &&& 2 ^ k = 0 ∧ (2 ^ k + w) &&& 2 ^ k = 2 ^ k ∧ (2 ^ k + w) ^^^ 2 ^ k = w := by
  have hfree : ∀ i, w.testBit i = true → i ≠ k := by
    rintro i hi rfl
    rw [Nat.testBit_lt_two_pow hw] at hi
    cases hi
  have hor := Nat.two_pow_add_eq_or_of_lt hw 1
  rw [Nat.mul_one] at hor
  refine ⟨?_, ?_, ?_⟩
  · refine Nat.eq_of_testBit_eq fun i ↦ ?_
    rw [Nat.testBit_and, Nat.testBit_two_pow, Nat.zero_testBit, Bool.and_eq_false_iff]
    by_cases hi : w.testBit i = true
    · exact .inr (decide_eq_false fun heq ↦ hfree i hi heq.symm)
    · exact .inl (Bool.eq_false_iff.mpr hi)
  · rw [hor]
    refine Nat.eq_of_testBit_eq fun i ↦ ?_
    rw [Nat.testBit_and, Nat.testBit_or, Nat.testBit_two_pow]
    by_cases hi : k = i
    · simp [hi]
    · simp [hi]
  · rw [hor]
    refine Nat.eq_of_testBit_eq fun i ↦ ?_
    rw [Nat.testBit_xor, Nat.testBit_or, Nat.testBit_two_pow]
    by_cases hi : k = i
    · have hbit : w.testBit i = false := hi ▸ Nat.testBit_lt_two_pow hw
      simp [hi, hbit]
    · simp [hi]

/-- The number that data reads as is the script number it spells. -/
theorem argToBigInt_data (d : Bytes) : argToBigInt (.data d) = some (decode d) := by
  rcases List.eq_nil_or_concat d with rfl | ⟨head, last, rfl⟩
  · rfl
  · rw [List.concat_eq_append, decode_concat]
    have hne : head ++ [last] ≠ [] := by simp
    have hlow := value_clear_lt head last
    have hbits : 8 * (head ++ [last]).length - 1 = 8 * head.length + 7 := by
      rw [List.length_append, List.length_singleton]
      omega
    have hpow : 256 ^ head.length * 2 ^ 7 = 2 ^ (8 * head.length + 7) := by
      rw [Nat.pow_add, Nat.pow_mul]
    have hvalue : value (head ++ [last]) =
        (if high last then 2 ^ (8 * head.length + 7) else 0) + value (head ++ [unsigned last]) := by
      rw [value_append, value_append, value_cons, value_cons, value_nil, unsigned_toNat]
      have hlt := last.toNat_lt
      cases hhigh : high last with
      | true =>
          have hge := (high_iff last).mp hhigh
          have hsplit : last.toNat = 2 ^ 7 + last.toNat % 128 := by
            omega
          rw [if_pos rfl, ← hpow]
          conv_lhs => rw [hsplit]
          ring
      | false =>
          have hge : ¬128 ≤ last.toNat := fun h ↦ by
            rw [(high_iff last).mpr h] at hhigh
            cases hhigh
          rw [if_neg Bool.false_ne_true, Nat.zero_add, Nat.mod_eq_of_lt (Nat.not_le.mp hge)]
    unfold argToBigInt
    split
    · rename_i heq
      cases heq
    · rename_i heq
      exact absurd (ScriptPush.data.inj heq) hne
    · rename_i d' _ heq
      obtain rfl := ScriptPush.data.inj heq
      obtain ⟨hfree, hand, hxor⟩ := and_xor_signBit hlow
      dsimp only
      rw [hbits, hvalue]
      cases hhigh : high last with
      | true =>
          rw [if_pos rfl, if_pos rfl, hand, hxor, if_pos (by positivity)]
      | false =>
          rw [if_neg Bool.false_ne_true, if_neg Bool.false_ne_true, Nat.zero_add, hfree,
            if_neg (by simp)]

/-! ## The grammar of a script -/

/-- How many bytes of a push opcode's script are its length. -/
def lengthWidth (op : UInt8) : Option Nat :=
  if 0x01 ≤ op ∧ op ≤ 0x4b then some 0
  else if op = 0x4c then some 1
  else if op = 0x4d then some 2
  else if op = 0x4e then some 4
  else none

/-- The length that a push declares. -/
def declaredLength (op : UInt8) (field : Bytes) : Nat :=
  if op ≤ 0x4b then op.toNat else value field

/-- An opcode alone, or a push with as much data as it declares. -/
inductive ScriptItem where
  | op (x : UInt8) (plain : lengthWidth x = none)
  | push (x : UInt8) (field data : Bytes) (width : lengthWidth x = some field.length)
      (complete : data.length = declaredLength x field)

namespace ScriptItem

def bytes : ScriptItem → Bytes
  | op x _ => [x]
  | push x field data _ _ => x :: (field ++ data)

def entry : ScriptItem → ScriptPush
  | op x _ => .opcode (some x)
  | push _ _ data _ _ => .data data

/-- How much data it holds. -/
def size : ScriptItem → Nat
  | op _ _ => 0
  | push _ _ data _ _ => data.length

end ScriptItem

theorem lengthWidth_eq_some {x : UInt8} {w : Nat} (h : lengthWidth x = some w) :
    (0x01 ≤ x ∧ x ≤ 0x4b ∧ w = 0) ∨ (x = 0x4c ∧ w = 1) ∨ (x = 0x4d ∧ w = 2) ∨
      (x = 0x4e ∧ w = 4) := by
  unfold lengthWidth at h
  split at h
  · rename_i hx
    exact .inl ⟨hx.1, hx.2, (Option.some.inj h).symm⟩
  · split at h
    · rename_i hx
      exact .inr (.inl ⟨hx, (Option.some.inj h).symm⟩)
    · split at h
      · rename_i hx
        exact .inr (.inr (.inl ⟨hx, (Option.some.inj h).symm⟩))
      · split at h
        · rename_i hx
          exact .inr (.inr (.inr ⟨hx, (Option.some.inj h).symm⟩))
        · cases h

/-! ## One turn of the reader -/

theorem byteAt_append (front rest : Bytes) (k : Nat) :
    byteAt (front ++ rest) (front.length + k) = rest[k]? := by
  rw [byteAt, if_pos (by omega)]
  have hindex : ((front.length : Int) + k).toNat = front.length + k := by
    omega
  rw [hindex, List.getElem?_append_right (Nat.le_add_right _ _), Nat.add_sub_cancel_left]

theorem byteAt_front (front rest : Bytes) (x : UInt8) :
    byteAt (front ++ x :: rest) front.length = some x :=
  byteAt_append front (x :: rest) 0

theorem byteAt_next {front rest : Bytes} {x : UInt8} (i : Int) {k : Nat}
    (hi : (front.length : Int) + i = front.length + (k + 1 : Nat)) :
    byteAt (front ++ x :: rest) (front.length + i) = rest[k]? := by
  rw [hi, byteAt_append]
  rfl

theorem toInt32_of_lt {n : Nat} (h : n < 2 ^ 31) : toInt32 n = n := by
  have hlow : -((2 ^ 32 : Nat) / 2 : Int) ≤ n := by
    omega
  have hhigh : (n : Int) < ((2 ^ 32 : Nat) + 1) / 2 := by
    omega
  exact Int.bmod_eq_of_le hlow hhigh

theorem toInt32_of_ge {n : Nat} (hlow : 2 ^ 31 ≤ n) (hhigh : n < 2 ^ 32) :
    toInt32 n = n - 2 ^ 32 := by
  refine (Int.bmod_eq_iff (by decide)).mpr ⟨by omega, by omega, -1, ?_⟩
  omega

/-- The reader finds the length that a push declares, and reads it as a signed number. -/
theorem pushHeader_eq {front field more : Bytes} {x : UInt8}
    (h : lengthWidth x = some field.length) :
    pushHeader (front ++ x :: (field ++ more)) front.length x =
      some (((front.length + (1 + field.length) : Nat) : Int),
        some (toInt32 (declaredLength x field))) := by
  rcases lengthWidth_eq_some h with ⟨hlow, hhigh, hw⟩ | ⟨rfl, hw⟩ | ⟨rfl, hw⟩ | ⟨rfl, hw⟩
  · have hlt := x.toNat_lt
    rw [pushHeader, if_pos ⟨hlow, hhigh⟩, declaredLength, if_pos hhigh,
      toInt32_of_lt (by omega), hw]
    rfl
  · obtain ⟨a, rfl⟩ := List.length_eq_one_iff.mp hw
    have ha := a.toNat_lt
    rw [pushHeader, if_neg (by decide), if_pos rfl, declaredLength, if_neg (by decide),
      byteAt_next 1 (k := 0) rfl, value_cons, value_nil, toInt32_of_lt (by omega)]
    rfl
  · obtain ⟨a, b, rfl⟩ := List.length_eq_two.mp hw
    rw [pushHeader, if_neg (by decide), if_neg (by decide), if_pos rfl, declaredLength,
      if_neg (by decide), bitsAt, bitsAt, byteAt_next 1 (k := 0) rfl,
      byteAt_next 2 (k := 1) rfl]
    rfl
  · obtain ⟨a, b, c, d, rfl⟩ := List.length_eq_four.mp hw
    rw [pushHeader, if_neg (by decide), if_neg (by decide), if_neg (by decide), if_pos rfl,
      declaredLength, if_neg (by decide), bitsAt, bitsAt, bitsAt, bitsAt,
      byteAt_next 1 (k := 0) rfl, byteAt_next 2 (k := 1) rfl,
      byteAt_next 3 (k := 2) rfl, byteAt_next 4 (k := 3) rfl]
    rfl

theorem arraySlice_middle (head mid rest : Bytes) {start stop : Int}
    (hstart : start = head.length) (hstop : stop = (head.length + mid.length : Nat)) :
    arraySlice (head ++ (mid ++ rest)) start stop = mid := by
  have hlen : (head ++ (mid ++ rest)).length = head.length + (mid.length + rest.length) := by
    rw [List.length_append, List.length_append]
  have hfirst : sliceIndex (head ++ (mid ++ rest)) start = head.length := by
    rw [sliceIndex, if_neg (by omega), hlen]
    omega
  have hlast : sliceIndex (head ++ (mid ++ rest)) stop = head.length + mid.length := by
    rw [sliceIndex, if_neg (by omega), hlen]
    omega
  rw [arraySlice, hfirst, hlast]
  exact byteRange_middle head mid rest

/-- The reader takes a complete item of less than two gigabytes. -/
theorem parsePush_item (front rest : Bytes) {item : ScriptItem} (h : item.size < 2 ^ 31) :
    parsePush (front ++ (item.bytes ++ rest)) front.length =
      .ok (item.entry, some ((front ++ item.bytes).length : Int)) := by
  cases item with
  | op x plain =>
      have hnone : pushHeader (front ++ x :: rest) front.length x = none := by
        unfold lengthWidth at plain
        unfold pushHeader
        split at plain
        · cases plain
        · rename_i h₁
          split at plain
          · cases plain
          · rename_i h₂
            split at plain
            · cases plain
            · rename_i h₃
              split at plain
              · cases plain
              · rename_i h₄
                rw [if_neg h₁, if_neg h₂, if_neg h₃, if_neg h₄]
      unfold parsePush
      rw [ScriptItem.bytes, List.cons_append, List.nil_append, byteAt_front]
      dsimp only
      rw [hnone]
      dsimp only
      rw [List.length_append, List.length_singleton]
      rfl
  | push x field data width complete =>
      have hheader := @pushHeader_eq front _ (data ++ rest) x width
      have hlen : toInt32 (declaredLength x field) = data.length := by
        rw [← complete]
        exact toInt32_of_lt h
      have hsplit : front ++ x :: (field ++ (data ++ rest)) =
          (front ++ x :: field) ++ (data ++ rest) := by
        rw [List.append_assoc, List.cons_append]
      have htotal : (front ++ x :: (field ++ (data ++ rest))).length =
          front.length + (1 + field.length + (data.length + rest.length)) := by
        simp only [List.length_append, List.length_cons]
        omega
      have hslice : arraySlice (front ++ x :: (field ++ (data ++ rest)))
          ((front.length + (1 + field.length) : Nat) : Int)
          (((front.length + (1 + field.length) : Nat) : Int) + data.length) = data := by
        rw [hsplit]
        refine arraySlice_middle _ _ _ ?_ ?_
        · simp only [List.length_append, List.length_cons]
          omega
        · simp only [List.length_append, List.length_cons]
          omega
      rw [ScriptItem.bytes, List.cons_append, List.append_assoc]
      unfold parsePush
      rw [byteAt_front]
      dsimp only
      rw [hheader, hlen]
      dsimp only
      rw [htotal, if_neg (by omega), hslice]
      refine congrArg (fun k ↦ Except.ok (ScriptPush.data data, some k)) ?_
      simp only [List.length_append, List.length_cons]
      omega

/-! ## The turns of the reader -/

section Loop

variable {b : Bytes} {i : Int} {next : Option Int} {e : ScriptPush}
  {r r' : Except String (List ScriptPush)}

theorem parsePushes_mono {fuel fuel' : Nat} {i : Option Int} (h : parsePushes b fuel i = some r)
    (hle : fuel ≤ fuel') : parsePushes b fuel' i = some r := by
  induction fuel generalizing fuel' i r with
  | zero =>
      cases i with
      | none =>
          rw [parsePushes] at h
          cases fuel' with
          | zero => exact h
          | succ fuel' => exact h
      | some i =>
          rw [parsePushes] at h
          split at h
          · cases h
          · rename_i hend
            cases fuel' with
            | zero => rwa [parsePushes, if_neg hend]
            | succ fuel' => rwa [parsePushes, if_neg hend]
  | succ fuel ih =>
      obtain ⟨fuel', rfl⟩ := Nat.exists_eq_succ_of_ne_zero (by omega : fuel' ≠ 0)
      cases i with
      | none => exact h
      | some i =>
          rw [parsePushes] at h ⊢
          split
          · rename_i hin
            rw [if_pos hin] at h
            cases hp : parsePush b i with
            | error m =>
                rw [hp] at h
                exact h
            | ok turn =>
                obtain ⟨e, next⟩ := turn
                rw [hp] at h
                obtain ⟨r₁, hr₁, rfl⟩ := Option.map_eq_some_iff.mp h
                dsimp only
                rw [ih hr₁ (Nat.succ_le_succ_iff.mp hle)]
                rfl
          · rename_i hend
            rwa [if_neg hend] at h

/-- The reader comes to one end. -/
theorem ParsesFrom.unique {i : Option Int} (h : ParsesFrom b i r) (h' : ParsesFrom b i r') :
    r = r' := by
  obtain ⟨fuel, h⟩ := h
  obtain ⟨fuel', h'⟩ := h'
  have hmax := parsePushes_mono h (Nat.le_max_left fuel fuel')
  rw [parsePushes_mono h' (Nat.le_max_right fuel fuel')] at hmax
  exact (Option.some.inj hmax).symm

theorem parsesFrom_none : ParsesFrom b none (.ok []) := ⟨0, rfl⟩

theorem parsesFrom_end (hend : ¬i < b.length) : ParsesFrom b (some i) (.ok []) :=
  ⟨0, by rw [parsePushes, if_neg hend]⟩

theorem ParsesFrom.turn (hin : i < b.length) (hp : parsePush b i = .ok (e, next))
    (h : ParsesFrom b next r) : ParsesFrom b (some i) (r.map (e :: ·)) := by
  obtain ⟨fuel, h⟩ := h
  refine ⟨fuel + 1, ?_⟩
  rw [parsePushes, if_pos hin, hp]
  dsimp only
  rw [h]
  rfl

theorem parsesFrom_error {m : String} (hin : i < b.length) (hp : parsePush b i = .error m) :
    ParsesFrom b (some i) (.error m) :=
  ⟨1, by rw [parsePushes, if_pos hin, hp]⟩

/-- A reader that returned has taken its turn. -/
theorem ParsesFrom.inv {es : List ScriptPush} (hin : i < b.length)
    (h : ParsesFrom b (some i) (.ok es)) :
    ∃ e next es', parsePush b i = .ok (e, next) ∧ ParsesFrom b next (.ok es') ∧ es = e :: es' := by
  obtain ⟨fuel, h⟩ := h
  cases fuel with
  | zero =>
      rw [parsePushes, if_pos hin] at h
      cases h
  | succ fuel =>
      rw [parsePushes, if_pos hin] at h
      cases hp : parsePush b i with
      | error m =>
          rw [hp] at h
          cases h
      | ok turn =>
          obtain ⟨e, next⟩ := turn
          rw [hp] at h
          obtain ⟨r, hr, hmap⟩ := Option.map_eq_some_iff.mp h
          cases r with
          | error m => cases hmap
          | ok es' => exact ⟨e, next, es', rfl, ⟨fuel, hr⟩, (Except.ok.inj hmap).symm⟩

end Loop

/-- The reader goes through complete items. -/
theorem parsesFrom_items {items : List ScriptItem} {front rest : Bytes}
    {r : Except String (List ScriptPush)} (hsize : ∀ item ∈ items, item.size < 2 ^ 31)
    (h : ParsesFrom (front ++ (items.flatMap (·.bytes) ++ rest))
      (some ((front ++ items.flatMap (·.bytes)).length : Int)) r) :
    ParsesFrom (front ++ (items.flatMap (·.bytes) ++ rest)) (some (front.length : Int))
      (r.map (items.map (·.entry) ++ ·)) := by
  induction items generalizing front with
  | nil =>
      rw [List.flatMap_nil, List.append_nil] at h
      have hid : r.map (List.map (·.entry) ([] : List ScriptItem) ++ ·) = r := by
        cases r with
        | error m => rfl
        | ok es => rfl
      rwa [hid]
  | cons item items ih =>
      obtain ⟨hitem, hitems⟩ := List.forall_mem_cons.mp hsize
      have hassoc : front ++ ((item :: items).flatMap (·.bytes) ++ rest) =
          (front ++ item.bytes) ++ (items.flatMap (·.bytes) ++ rest) := by
        rw [List.flatMap_cons, List.append_assoc, List.append_assoc]
      have hfront : front ++ (item :: items).flatMap (·.bytes) =
          (front ++ item.bytes) ++ items.flatMap (·.bytes) := by
        rw [List.flatMap_cons, List.append_assoc]
      rw [hassoc, hfront] at h
      have htail := ih hitems h
      have hturn := parsePush_item front (items.flatMap (·.bytes) ++ rest) hitem
      rw [← List.append_assoc] at hturn
      have hpos : 0 < item.bytes.length := by
        cases item with
        | op x plain => exact Nat.zero_lt_one
        | push x field data width complete => exact Nat.succ_pos _
      have hin : (front.length : Int) <
          ((front ++ item.bytes) ++ (items.flatMap (·.bytes) ++ rest)).length := by
        simp only [List.length_append]
        omega
      have hall := htail.turn hin hturn
      rw [hassoc]
      cases r with
      | error m => exact hall
      | ok es => exact hall

end Kascov
