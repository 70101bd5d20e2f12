import Kascov.Lib.Blake2b
import Kascov.Model.Types

/-!
# The hash of the trade module

`blake2b256` of the module that checks a commitment before it signs: a word is a pair of
32-bit halves, the low one first, in two buffers that all calls share; the input is taken
byte by byte.  Sums of halves are numbers that a `Uint32Array` cuts when they are stored.
-/

namespace Kascov.CurveHash

open Blake2b (Word Work put)
open scoped Blake2b

scoped instance instNeZeroPlaces : NeZero 32 := ⟨by decide⟩

abbrev Half := BitVec 32

/-- `B2B_IV32`. -/
def b2bIv32 : Vector Half 16 :=
  #v[0xf3bcc908, 0x6a09e667, 0x84caa73b, 0xbb67ae85, 0xfe94f82b, 0x3c6ef372, 0x5f1d36f1,
    0xa54ff53a, 0xade682d1, 0x510e527f, 0x2b3e6c1f, 0x9b05688c, 0xfb41bd6b, 0x1f83d9ab,
    0x137e2179, 0x5be0cd19]

/-- The permutations one after the other. -/
def b2bPermutations : Vector Nat 192 :=
  #v[0, 1, 2, 3, 4, 5, 6, 7, 8, 9, 10, 11, 12, 13, 14, 15,
    14, 10, 4, 8, 9, 15, 13, 6, 1, 12, 0, 2, 11, 7, 5, 3,
    11, 8, 12, 0, 5, 2, 15, 13, 10, 14, 3, 6, 7, 1, 9, 4,
    7, 9, 3, 1, 13, 12, 11, 14, 2, 6, 5, 10, 4, 0, 15, 8,
    9, 0, 5, 7, 2, 4, 10, 15, 14, 1, 11, 12, 6, 8, 3, 13,
    2, 12, 6, 10, 0, 11, 8, 3, 4, 13, 7, 5, 15, 14, 1, 9,
    12, 5, 1, 15, 14, 13, 4, 10, 0, 7, 6, 3, 9, 2, 8, 11,
    13, 11, 7, 14, 12, 1, 3, 9, 5, 0, 15, 4, 8, 6, 2, 10,
    6, 15, 14, 9, 11, 3, 0, 8, 12, 2, 13, 7, 1, 4, 10, 5,
    10, 2, 8, 4, 7, 6, 1, 5, 15, 11, 9, 14, 3, 12, 13, 0,
    0, 1, 2, 3, 4, 5, 6, 7, 8, 9, 10, 11, 12, 13, 14, 15,
    14, 10, 4, 8, 9, 15, 13, 6, 1, 12, 0, 2, 11, 7, 5, 3]

/-- `B2B_SIGMA`: the permutations, doubled. -/
def b2bSigma : Vector (Fin 32) 192 := b2bPermutations.map fun x ↦ Fin.ofNat 32 (x * 2)

/-- The buffers `B2B_V` and `B2B_M`. -/
structure Scratch where
  v : Vector Half 32
  m : Vector Half 32

/-- The context of one call. -/
structure Ctx where
  b : Vector UInt8 128
  h : Vector Half 16
  t : Nat
  c : Nat

/-- `v[a] = lo; v[a + 1] = hi`. -/
def setPair (v : Vector Half 32) (a : Fin 32) (lo hi : Half) : Vector Half 32 :=
  let v := put v a lo
  put v (a + 1) hi

/-- `b2bAddAA`. -/
def b2bAddAA (v : Vector Half 32) (a b : Fin 32) : Vector Half 32 :=
  let o0 := (v.get a).toNat + (v.get b).toNat
  let o1 := (v.get (a + 1)).toNat + (v.get (b + 1)).toNat
  let o1 := if 0x100000000 ≤ o0 then o1 + 1 else o1
  setPair v a (BitVec.ofNat 32 o0) (BitVec.ofNat 32 o1)

/-- `b2bAddAC`. -/
def b2bAddAC (v : Vector Half 32) (a : Fin 32) (b0 b1 : Int) : Vector Half 32 :=
  let o0 : Int := (v.get a).toNat + b0
  let o0 := if b0 < 0 then o0 + 0x100000000 else o0
  let o1 : Int := (v.get (a + 1)).toNat + b1
  let o1 := if 0x100000000 ≤ o0 then o1 + 1 else o1
  setPair v a (BitVec.ofInt 32 o0) (BitVec.ofInt 32 o1)

/-- `b2bGet32`; past the end of the array there are no bits. -/
def b2bGet32 (arr : Vector UInt8 128) (i : Nat) : Half :=
  let byte (k : Nat) := BitVec.ofNat 32 (arr.toList.getD k 0).toNat
  byte i ^^^ (byte (i + 1) <<< 8) ^^^ (byte (i + 2) <<< 16) ^^^ (byte (i + 3) <<< 24)

/-- `b2bG`. -/
def b2bG (s : Scratch) (a b c d ix iy : Fin 32) : Scratch :=
  let x0 := s.m.get ix
  let x1 := s.m.get (ix + 1)
  let y0 := s.m.get iy
  let y1 := s.m.get (iy + 1)
  let v := b2bAddAC (b2bAddAA s.v a b) a x0.toNat x1.toNat
  let xor0 := v.get d ^^^ v.get a
  let xor1 := v.get (d + 1) ^^^ v.get (a + 1)
  let v := setPair v d xor1 xor0
  let v := b2bAddAA v c d
  let xor0 := v.get b ^^^ v.get c
  let xor1 := v.get (b + 1) ^^^ v.get (c + 1)
  let v := setPair v b ((xor0 >>> 24) ^^^ (xor1 <<< 8)) ((xor1 >>> 24) ^^^ (xor0 <<< 8))
  let v := b2bAddAC (b2bAddAA v a b) a y0.toNat y1.toNat
  let xor0 := v.get d ^^^ v.get a
  let xor1 := v.get (d + 1) ^^^ v.get (a + 1)
  let v := setPair v d ((xor0 >>> 16) ^^^ (xor1 <<< 16)) ((xor1 >>> 16) ^^^ (xor0 <<< 16))
  let v := b2bAddAA v c d
  let xor0 := v.get b ^^^ v.get c
  let xor1 := v.get (b + 1) ^^^ v.get (c + 1)
  let v := setPair v b ((xor1 >>> 31) ^^^ (xor0 <<< 1)) ((xor0 >>> 31) ^^^ (xor1 <<< 1))
  { s with v }

/-- The entry `k` of round `i`. -/
def sigmaAt (i : Fin 12) (k : Fin 16) : Fin 32 := b2bSigma.get (Fin.ofNat 192 (i * 16 + k))

/-- One turn of the loop over the rounds. -/
def b2bRound (s : Scratch) (i : Fin 12) : Scratch :=
  let s := b2bG s 0 8 16 24 (sigmaAt i 0) (sigmaAt i 1)
  let s := b2bG s 2 10 18 26 (sigmaAt i 2) (sigmaAt i 3)
  let s := b2bG s 4 12 20 28 (sigmaAt i 4) (sigmaAt i 5)
  let s := b2bG s 6 14 22 30 (sigmaAt i 6) (sigmaAt i 7)
  let s := b2bG s 0 10 20 30 (sigmaAt i 8) (sigmaAt i 9)
  let s := b2bG s 2 12 22 24 (sigmaAt i 10) (sigmaAt i 11)
  let s := b2bG s 4 14 16 26 (sigmaAt i 12) (sigmaAt i 13)
  b2bG s 6 8 18 28 (sigmaAt i 14) (sigmaAt i 15)

/-- `b2bCompress`. -/
def b2bCompress (s : Scratch) (ctx : Ctx) (last : Bool) : Scratch × Ctx :=
  let v := (List.finRange 16).foldl (fun (v : Vector Half 32) (i : Fin 16) ↦
    put (put v (Fin.castAdd 16 i) (ctx.h.get i)) (Fin.addNat i 16) (b2bIv32.get i)) s.v
  let v := put v 24 (v.get 24 ^^^ (BitVec.ofNat 32 ctx.t &&& 0xffffffff))
  let v := put v 25 (v.get 25 ^^^ BitVec.ofNat 32 (ctx.t / 0x100000000))
  let v := if last then
      let v := put v 28 (~~~v.get 28)
      put v 29 (~~~v.get 29)
    else v
  let m := (List.finRange 32).foldl (fun (m : Vector Half 32) (i : Fin 32) ↦
    put m i (b2bGet32 ctx.b (4 * i.val))) s.m
  let s := (List.finRange 12).foldl b2bRound ⟨v, m⟩
  let h := Vector.ofFn fun i ↦ ctx.h.get i ^^^ s.v.get (Fin.castAdd 16 i) ^^^
    s.v.get (Fin.natAdd 16 i)
  (s, { ctx with h })

/-- One turn of the loop over the input. -/
def feed (state : Scratch × Ctx) (byte : UInt8) : Scratch × Ctx :=
  let (s, ctx) :=
    if state.2.c = 128 then
      let (s, ctx) := b2bCompress state.1 { state.2 with t := state.2.t + state.2.c } false
      (s, { ctx with c := 0 })
    else state
  (s, { ctx with b := ctx.b.setIfInBounds ctx.c byte, c := ctx.c + 1 })

/-- The loop that fills the last block up. -/
def fill (b : Vector UInt8 128) (c : Nat) : Vector UInt8 128 :=
  if c < 128 then fill (b.setIfInBounds c 0) (c + 1) else b
termination_by 128 - c

/-- A byte of the result. -/
def outByte (h : Vector Half 16) (i : Fin 32) : UInt8 :=
  UInt8.ofNat (((h.get ⟨i / 4, by omega⟩).sshiftRight (8 * (i % 4)) &&& 0xff).toNat)

/-- `blake2b256`, with the buffers as an earlier call left them. -/
def blake2b256 (s : Scratch) (bytes : Bytes) : Scratch × Bytes :=
  let ctx : Ctx :=
    { b := Vector.replicate 128 0
      h := put b2bIv32 0 (b2bIv32.get 0 ^^^ (0x01010000 ^^^ 32))
      t := 0
      c := 0 }
  let (s, ctx) := bytes.foldl feed (s, ctx)
  let ctx := { ctx with t := ctx.t + ctx.c, b := fill ctx.b ctx.c, c := max ctx.c 128 }
  let (s, ctx) := b2bCompress s ctx true
  (s, (List.finRange 32).map (outByte ctx.h))

/-! ## Words and their halves -/

def low (w : Word) : Half := w.setWidth 32

def high (w : Word) : Half := (w >>> 32).setWidth 32

theorem low_toNat (w : Word) : (low w).toNat = w.toNat % 2 ^ 32 := BitVec.toNat_setWidth 32 w

theorem high_toNat (w : Word) : (high w).toNat = w.toNat / 2 ^ 32 := by
  have h := w.isLt
  rw [high, BitVec.toNat_setWidth, BitVec.toNat_ushiftRight, Nat.shiftRight_eq_div_pow]
  omega

theorem getLsbD_low (w : Word) (i : Nat) : (low w).getLsbD i = (decide (i < 32) && w.getLsbD i) :=
  BitVec.getLsbD_setWidth 32 w i

theorem getLsbD_high (w : Word) (i : Nat) :
    (high w).getLsbD i = (decide (i < 32) && w.getLsbD (32 + i)) := by
  rw [high, BitVec.getLsbD_setWidth, BitVec.getLsbD_ushiftRight]

@[simp] theorem low_xor (x y : Word) : low (x ^^^ y) = low x ^^^ low y := BitVec.setWidth_xor ..

@[simp] theorem high_xor (x y : Word) : high (x ^^^ y) = high x ^^^ high y := by
  rw [high, BitVec.ushiftRight_xor_distrib, BitVec.setWidth_xor]
  rfl

/-- A rotation by less than a half. -/
theorem rotate_low (w : Word) {k l : Nat} (hk : 0 < k) (hkl : k + l = 32) :
    (low w >>> k) ^^^ (high w <<< l) = low (w.rotateRight k) := by
  apply BitVec.eq_of_getLsbD_eq
  intro i hi
  rw [BitVec.getLsbD_xor, BitVec.getLsbD_ushiftRight, BitVec.getLsbD_shiftLeft, getLsbD_low,
    getLsbD_high, getLsbD_low, BitVec.getLsbD_rotateRight, Nat.mod_eq_of_lt (by omega : k < 64)]
  by_cases h : i < l
  · simp [h, hi, (by omega : k + i < 32), (by omega : i < 64 - k)]
  · have hshift : 32 + (i - l) = k + i := by omega
    have hpast := decide_eq_false (by omega : ¬k + i < 32)
    simp [h, hi, hpast, (by omega : i < 64 - k), (by omega : i - l < 32), hshift]

theorem rotate_high (w : Word) {k l : Nat} (hk : 0 < k) (hkl : k + l = 32) :
    (high w >>> k) ^^^ (low w <<< l) = high (w.rotateRight k) := by
  apply BitVec.eq_of_getLsbD_eq
  intro i hi
  rw [BitVec.getLsbD_xor, BitVec.getLsbD_ushiftRight, BitVec.getLsbD_shiftLeft, getLsbD_low,
    getLsbD_high, getLsbD_high, BitVec.getLsbD_rotateRight, Nat.mod_eq_of_lt (by omega : k < 64)]
  by_cases h : i < l
  · have hshift : 32 + (k + i) = k + (32 + i) := by omega
    simp [h, hi, (by omega : k + i < 32), (by omega : 32 + i < 64 - k), hshift]
  · have hshift : 32 + i - (64 - k) = i - l := by omega
    have hpast := decide_eq_false (by omega : ¬k + i < 32)
    have hwrap := decide_eq_false (by omega : ¬32 + i < 64 - k)
    simp [h, hi, hpast, hwrap, (by omega : i - l < 32), (by omega : 32 + i < 64), hshift]

/-- A rotation by a half more swaps the halves. -/
theorem low_rotate_add (w : Word) {k : Nat} (hk : k < 32) :
    low (w.rotateRight (32 + k)) = high (w.rotateRight k) := by
  apply BitVec.eq_of_getLsbD_eq
  intro i hi
  rw [getLsbD_low, getLsbD_high, BitVec.getLsbD_rotateRight, BitVec.getLsbD_rotateRight,
    Nat.mod_eq_of_lt (by omega : 32 + k < 64), Nat.mod_eq_of_lt (by omega : k < 64)]
  by_cases h : i < 32 - k
  · have hshift : k + (32 + i) = 32 + k + i := by omega
    simp [hi, (by omega : i < 64 - (32 + k)), (by omega : 32 + i < 64 - k), hshift]
  · have hwrap := decide_eq_false (by omega : ¬i < 64 - (32 + k))
    have hwrap' := decide_eq_false (by omega : ¬32 + i < 64 - k)
    have hshift : 32 + i - (64 - k) = i - (64 - (32 + k)) := by omega
    simp [hi, hwrap, hwrap', (by omega : i < 64), (by omega : 32 + i < 64), hshift]

theorem high_rotate_add (w : Word) {k : Nat} (hk : k < 32) :
    high (w.rotateRight (32 + k)) = low (w.rotateRight k) := by
  apply BitVec.eq_of_getLsbD_eq
  intro i hi
  rw [getLsbD_low, getLsbD_high, BitVec.getLsbD_rotateRight, BitVec.getLsbD_rotateRight,
    Nat.mod_eq_of_lt (by omega : 32 + k < 64), Nat.mod_eq_of_lt (by omega : k < 64)]
  have hwrap := decide_eq_false (by omega : ¬32 + i < 64 - (32 + k))
  have hshift : 32 + i - (64 - (32 + k)) = k + i := by omega
  simp [hi, hwrap, (by omega : i < 64 - k), (by omega : 32 + i < 64), hshift]

/-- Halves that spell a word are its halves. -/
theorem eq_halves {lo hi : Half} {w : Word} (h : lo.toNat + 2 ^ 32 * hi.toNat = w.toNat) :
    lo = low w ∧ hi = high w := by
  have hlo := lo.isLt
  constructor
  · apply BitVec.eq_of_toNat_eq
    rw [low_toNat]
    omega
  · apply BitVec.eq_of_toNat_eq
    rw [high_toNat]
    omega

/-! ## Buffers of halves -/

section Halves

variable {n m : Nat}

/-- Words as pairs of halves, the low one first. -/
def halves (hm : m = 2 * n) (v : Vector Word n) : Vector Half m :=
  Vector.ofFn fun i ↦
    if i.val % 2 = 0 then low (v.get ⟨i / 2, by omega⟩) else high (v.get ⟨i / 2, by omega⟩)

theorem halves_get_low (hm : m = 2 * n) (v : Vector Word n) (i : Fin n) {j : Fin m}
    (hj : j.val = 2 * i) : (halves hm v).get j = low (v.get i) := by
  have hi : (⟨j / 2, by omega⟩ : Fin n) = i := Fin.ext (show j.val / 2 = i.val by omega)
  have heven : j.val % 2 = 0 := by omega
  rw [← hi]
  exact (Vector.getElem_ofFn j.isLt).trans (if_pos heven)

theorem halves_get_high (hm : m = 2 * n) (v : Vector Word n) (i : Fin n) {j : Fin m}
    (hj : j.val = 2 * i + 1) : (halves hm v).get j = high (v.get i) := by
  have hi : (⟨j / 2, by omega⟩ : Fin n) = i := Fin.ext (show j.val / 2 = i.val by omega)
  have hodd : ¬j.val % 2 = 0 := by omega
  rw [← hi]
  exact (Vector.getElem_ofFn j.isLt).trans (if_neg hodd)

/-- A buffer is known by the halves it has at every place. -/
theorem eq_halves_of_get (hm : m = 2 * n) {buffer : Vector Half m} {v : Vector Word n}
    (hlow : ∀ (i : Fin n) (j : Fin m), j.val = 2 * i → buffer.get j = low (v.get i))
    (hhigh : ∀ (i : Fin n) (j : Fin m), j.val = 2 * i + 1 → buffer.get j = high (v.get i)) :
    buffer = halves hm v := by
  apply Vector.ext
  intro j hj
  by_cases heven : j % 2 = 0
  · have h : j = 2 * (j / 2) := by omega
    exact (hlow ⟨j / 2, by omega⟩ ⟨j, hj⟩ h).trans
      (halves_get_low hm v ⟨j / 2, by omega⟩ (j := ⟨j, hj⟩) h).symm
  · have h : j = 2 * (j / 2) + 1 := by omega
    exact (hhigh ⟨j / 2, by omega⟩ ⟨j, hj⟩ h).trans
      (halves_get_high hm v ⟨j / 2, by omega⟩ (j := ⟨j, hj⟩) h).symm

end Halves

/-- The local vector, in halves. -/
abbrev work (v : Vector Word 16) : Vector Half 32 := halves rfl v

/-- The state, in halves. -/
abbrev state (h : Vector Word 8) : Vector Half 16 := halves rfl h

/-- The place of the low half of a word. -/
def even (a : Fin 16) : Fin 32 := ⟨2 * a, by omega⟩

theorem even_succ : ∀ a : Fin 16, (even a + 1 : Fin 32).val = 2 * a + 1 := by
  decide

@[simp] theorem work_get_even (v : Work) (a : Fin 16) : (work v).get (even a) = low (v.get a) :=
  halves_get_low rfl v a rfl

@[simp] theorem work_get_odd (v : Work) (a : Fin 16) :
    (work v).get (even a + 1) = high (v.get a) :=
  halves_get_high rfl v a (even_succ a)

/-- A word is stored as its halves. -/
theorem setPair_work (v : Work) (a : Fin 16) (w : Word) :
    setPair (work v) (even a) (low w) (high w) = work (put v a w) := by
  have hget : ∀ i : Fin 16, (put v a w).get i = if a.val = i.val then w else v.get i :=
    fun i ↦ Vector.getElem_set a.isLt i.isLt
  have hpair : ∀ j : Fin 32, (setPair (work v) (even a) (low w) (high w)).get j =
      if 2 * a.val + 1 = j then high w else if 2 * a.val = j then low w else (work v).get j := by
    intro j
    have h : (setPair (work v) (even a) (low w) (high w)).get j =
        if (even a + 1 : Fin 32).val = j then high w else (put (work v) (even a) (low w)).get j :=
      Vector.getElem_set (even a + 1 : Fin 32).isLt j.isLt
    have h' : (put (work v) (even a) (low w)).get j =
        if (even a).val = j then low w else (work v).get j :=
      Vector.getElem_set (even a).isLt j.isLt
    rw [h, h', even_succ]
    rfl
  apply eq_halves_of_get
  · intro i j hj
    rw [hpair, if_neg (by omega), hget, halves_get_low rfl v i hj]
    by_cases ha : a.val = i.val
    · rw [if_pos (by omega), if_pos ha]
    · rw [if_neg (by omega), if_neg ha]
  · intro i j hj
    rw [hpair, hget, halves_get_high rfl v i hj]
    by_cases ha : a.val = i.val
    · rw [if_pos (by omega), if_pos ha]
    · rw [if_neg (by omega), if_neg (by omega), if_neg ha]

/-! ## The mixing function -/

/-- The carry goes from the low half to the high one. -/
theorem sum_halves (x y : Word) :
    BitVec.ofNat 32 ((low x).toNat + (low y).toNat) = low (x + y) ∧
      BitVec.ofNat 32 (if 0x100000000 ≤ (low x).toNat + (low y).toNat then
        (high x).toNat + (high y).toNat + 1 else (high x).toNat + (high y).toNat) =
        high (x + y) := by
  have hx := x.isLt
  have hy := y.isLt
  apply eq_halves
  rw [BitVec.toNat_ofNat, BitVec.toNat_ofNat, BitVec.toNat_add, low_toNat, low_toNat, high_toNat,
    high_toNat]
  split
  · omega
  · omega

theorem b2bAddAA_work (v : Work) (a b : Fin 16) :
    b2bAddAA (work v) (even a) (even b) = work (put v a (v.get a + v.get b)) := by
  obtain ⟨hlow, hhigh⟩ := sum_halves (v.get a) (v.get b)
  unfold b2bAddAA
  simp only [work_get_even, work_get_odd]
  rw [hlow, hhigh, setPair_work]

/-- The halves of the message are no negative numbers. -/
theorem b2bAddAC_work (v : Work) (a : Fin 16) (w : Word) :
    b2bAddAC (work v) (even a) (low w).toNat (high w).toNat =
      work (put v a (v.get a + w)) := by
  obtain ⟨hlow, hhigh⟩ := sum_halves (v.get a) w
  have hnonneg : ¬((low w).toNat : Int) < 0 := by omega
  have hlow' : BitVec.ofInt 32 (((low (v.get a)).toNat : Int) + (low w).toNat) =
      low (v.get a + w) := by
    rw [← hlow]
    exact BitVec.ofInt_natCast 32 _
  have hhigh' : BitVec.ofInt 32
      (if (0x100000000 : Int) ≤ ((low (v.get a)).toNat : Int) + (low w).toNat then
        ((high (v.get a)).toNat : Int) + (high w).toNat + 1
      else ((high (v.get a)).toNat : Int) + (high w).toNat) = high (v.get a + w) := by
    rw [← hhigh, ← BitVec.ofInt_natCast]
    congr 1
    split
    · rw [if_pos (by omega)]
      push_cast
      rfl
    · rw [if_neg (by omega)]
      push_cast
      rfl
  unfold b2bAddAC
  simp only [work_get_even, work_get_odd, if_neg hnonneg]
  rw [hlow', hhigh', setPair_work]

/-- The word of the message comes to the sum of the two others. -/
theorem b2bAdd_work (v : Work) (a : Fin 16) (x w : Word) :
    b2bAddAC (work (put v a (v.get a + x))) (even a) (low w).toNat (high w).toNat =
      work (v.add a (x + w)) := by
  have hget : (put v a (v.get a + x)).get a = v.get a + x := Vector.getElem_set_self a.isLt
  rw [b2bAddAC_work, hget, put, Vector.set_set, Work.add, BitVec.add_assoc]

theorem rotateRight_zero (w : Word) : w.rotateRight 0 = w := by
  apply BitVec.eq_of_getLsbD_eq
  intro i hi
  rw [BitVec.getLsbD_rotateRight]
  simp [hi]

theorem setPair_rotate32 (v : Work) (a : Fin 16) (w : Word) :
    setPair (work v) (even a) (high w) (low w) = work (put v a (w.rotateRight 32)) := by
  have hlow := low_rotate_add w (by decide : 0 < 32)
  have hhigh := high_rotate_add w (by decide : 0 < 32)
  rw [rotateRight_zero] at hlow hhigh
  rw [← setPair_work, ← hlow, ← hhigh]

theorem setPair_rotate (v : Work) (a : Fin 16) (w : Word) {k l : Nat} (hk : 0 < k)
    (hkl : k + l = 32) :
    setPair (work v) (even a) ((low w >>> k) ^^^ (high w <<< l))
      ((high w >>> k) ^^^ (low w <<< l)) =
      work (put v a (w.rotateRight k)) := by
  rw [rotate_low w hk hkl, rotate_high w hk hkl, setPair_work]

theorem setPair_rotate63 (v : Work) (a : Fin 16) (w : Word) :
    setPair (work v) (even a) ((high w >>> 31) ^^^ (low w <<< 1))
      ((low w >>> 31) ^^^ (high w <<< 1)) =
      work (put v a (w.rotateRight 63)) := by
  have hlow := low_rotate_add w (by decide : 31 < 32)
  have hhigh := high_rotate_add w (by decide : 31 < 32)
  rw [rotate_high w (by decide) (by decide), rotate_low w (by decide) (by decide), ← setPair_work,
    ← hlow, ← hhigh]

/-- `b2bG` is the mixing function of the standard. -/
theorem b2bG_work (v : Work) (m : Vector Word 16) (a b c d x y : Fin 16) :
    b2bG ⟨work v, work m⟩ (even a) (even b) (even c) (even d) (even x) (even y) =
      ⟨work (v.mix a b c d (m.get x) (m.get y)), work m⟩ := by
  have h24 := fun v a w ↦ setPair_rotate v a w (by decide : 0 < 24) (by decide : 24 + 8 = 32)
  have h16 := fun v a w ↦ setPair_rotate v a w (by decide : 0 < 16) (by decide : 16 + 16 = 32)
  unfold b2bG Work.mix Work.half Work.xrot
  simp only [work_get_even, work_get_odd, b2bAddAA_work, b2bAdd_work, ← low_xor, ← high_xor,
    setPair_rotate32, setPair_rotate63, h24, h16]
  rfl

/-- The doubled tables are the standard's, and begin again after the tenth. -/
theorem double_permutations : ∀ j : Fin 192,
    Fin.ofNat 32 (b2bPermutations.get j * 2) = even (Blake2b.sigma.get (Fin.ofNat 160 j)) := by
  decide +kernel

theorem sigmaAt_eq (i : Fin 12) (k : Fin 16) :
    sigmaAt i k = even ((Blake2b.schedule i).get k) := by
  have hplace : (Fin.ofNat 160 (Fin.ofNat 192 (i * 16 + k)).val) =
      Fin.ofNat 160 (16 * (i.val % 10) + k) := by
    apply Fin.ext
    simp only [Fin.ofNat]
    omega
  have hschedule : (Blake2b.schedule i).get k =
      Blake2b.sigma.get (Fin.ofNat 160 (16 * (i.val % 10) + k)) := Vector.getElem_ofFn k.isLt
  rw [hschedule, ← hplace, ← double_permutations]
  exact Vector.getElem_map _ (Fin.ofNat 192 (i.val * 16 + k)).isLt

theorem b2bRound_work (v : Work) (m : Vector Word 16) (i : Fin 12) :
    b2bRound ⟨work v, work m⟩ i = ⟨work (v.round m (Blake2b.schedule i)), work m⟩ := by
  have h0 : (0 : Fin 32) = even 0 := rfl
  have h2 : (2 : Fin 32) = even 1 := rfl
  have h4 : (4 : Fin 32) = even 2 := rfl
  have h6 : (6 : Fin 32) = even 3 := rfl
  have h8 : (8 : Fin 32) = even 4 := rfl
  have h10 : (10 : Fin 32) = even 5 := rfl
  have h12 : (12 : Fin 32) = even 6 := rfl
  have h14 : (14 : Fin 32) = even 7 := rfl
  have h16 : (16 : Fin 32) = even 8 := rfl
  have h18 : (18 : Fin 32) = even 9 := rfl
  have h20 : (20 : Fin 32) = even 10 := rfl
  have h22 : (22 : Fin 32) = even 11 := rfl
  have h24 : (24 : Fin 32) = even 12 := rfl
  have h26 : (26 : Fin 32) = even 13 := rfl
  have h28 : (28 : Fin 32) = even 14 := rfl
  have h30 : (30 : Fin 32) = even 15 := rfl
  unfold b2bRound Work.round
  simp only [h0, h2, h4, h6, h8, h10, h12, h14, h16, h18, h20, h22, h24, h26, h28, h30,
    sigmaAt_eq, b2bG_work]

theorem rounds_work (m : Vector Word 16) (rounds : List (Fin 12)) (v : Work) :
    rounds.foldl b2bRound ⟨work v, work m⟩ =
      ⟨work ((rounds.map Fin.val).foldl (fun v i ↦ Work.round m (Blake2b.schedule i) v) v),
        work m⟩ := by
  induction rounds generalizing v with
  | nil => rfl
  | cons i rounds ih => rw [List.foldl_cons, b2bRound_work, ih, List.map_cons, List.foldl_cons]

end Kascov.CurveHash
