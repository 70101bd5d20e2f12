import Kascov.Lib.Blake2b
import Kascov.Model.Types

/-!
# The hash of the verifier page

`blake2b256` of the page that checks pasted programs: its words are unbounded integers,
cut to 64 bits after every step, and its blocks are slices of the input.
-/

namespace Kascov.PageHash

open Blake2b (Word Work put)
open scoped Blake2b

/-- `IV`. -/
def iv : Vector Nat 8 :=
  #v[0x6a09e667f3bcc908, 0xbb67ae8584caa73b, 0x3c6ef372fe94f82b, 0xa54ff53a5f1d36f1,
    0x510e527fade682d1, 0x9b05688c2b3e6c1f, 0x1f83d9abfb41bd6b, 0x5be0cd19137e2179]

/-- `SIGMA`. -/
def sigma : Vector (Vector (Fin 16) 16) 12 :=
  #v[#v[0, 1, 2, 3, 4, 5, 6, 7, 8, 9, 10, 11, 12, 13, 14, 15],
    #v[14, 10, 4, 8, 9, 15, 13, 6, 1, 12, 0, 2, 11, 7, 5, 3],
    #v[11, 8, 12, 0, 5, 2, 15, 13, 10, 14, 3, 6, 7, 1, 9, 4],
    #v[7, 9, 3, 1, 13, 12, 11, 14, 2, 6, 5, 10, 4, 0, 15, 8],
    #v[9, 0, 5, 7, 2, 4, 10, 15, 14, 1, 11, 12, 6, 8, 3, 13],
    #v[2, 12, 6, 10, 0, 11, 8, 3, 4, 13, 7, 5, 15, 14, 1, 9],
    #v[12, 5, 1, 15, 14, 13, 4, 10, 0, 7, 6, 3, 9, 2, 8, 11],
    #v[13, 11, 7, 14, 12, 1, 3, 9, 5, 0, 15, 4, 8, 6, 2, 10],
    #v[6, 15, 14, 9, 11, 3, 0, 8, 12, 2, 13, 7, 1, 4, 10, 5],
    #v[10, 2, 8, 4, 7, 6, 1, 5, 15, 11, 9, 14, 3, 12, 13, 0],
    #v[0, 1, 2, 3, 4, 5, 6, 7, 8, 9, 10, 11, 12, 13, 14, 15],
    #v[14, 10, 4, 8, 9, 15, 13, 6, 1, 12, 0, 2, 11, 7, 5, 3]]

/-- `M64`. -/
def m64 : Nat := (1 <<< 64) - 1

def rotr (x n : Nat) : Nat := ((x >>> n) ||| (x <<< (64 - n))) &&& m64

/-- `G`. -/
def mix (v : Vector Nat 16) (a b c d : Fin 16) (x y : Nat) : Vector Nat 16 :=
  let v := put v a ((v.get a + v.get b + x) &&& m64)
  let v := put v d (rotr (v.get d ^^^ v.get a) 32)
  let v := put v c ((v.get c + v.get d) &&& m64)
  let v := put v b (rotr (v.get b ^^^ v.get c) 24)
  let v := put v a ((v.get a + v.get b + y) &&& m64)
  let v := put v d (rotr (v.get d ^^^ v.get a) 16)
  let v := put v c ((v.get c + v.get d) &&& m64)
  put v b (rotr (v.get b ^^^ v.get c) 63)

/-- One turn of the loop over the rounds. -/
def round (m : Vector Nat 16) (s : Vector (Fin 16) 16) (v : Vector Nat 16) : Vector Nat 16 :=
  let v := mix v 0 4 8 12 (m.get (s.get 0)) (m.get (s.get 1))
  let v := mix v 1 5 9 13 (m.get (s.get 2)) (m.get (s.get 3))
  let v := mix v 2 6 10 14 (m.get (s.get 4)) (m.get (s.get 5))
  let v := mix v 3 7 11 15 (m.get (s.get 6)) (m.get (s.get 7))
  let v := mix v 0 5 10 15 (m.get (s.get 8)) (m.get (s.get 9))
  let v := mix v 1 6 11 12 (m.get (s.get 10)) (m.get (s.get 11))
  let v := mix v 2 7 8 13 (m.get (s.get 12)) (m.get (s.get 13))
  mix v 3 4 9 14 (m.get (s.get 14)) (m.get (s.get 15))

/-- A word of the block, read from its last byte on. -/
def readWord (block : Bytes) (i : Nat) : Nat :=
  [7, 6, 5, 4, 3, 2, 1, 0].foldl (fun w j ↦ (w <<< 8) ||| (block.getD (i * 8 + j) 0).toNat) 0

/-- `compress`, which leaves its result in `h`. -/
def compress (h : Vector Nat 8) (block : Bytes) (t : Nat) (last : Bool) : Vector Nat 8 :=
  let m := Vector.ofFn fun i : Fin 16 ↦ readWord block i
  let v : Vector Nat 16 := h ++ iv
  let v := put v 12 (v.get 12 ^^^ (t &&& m64))
  let v := if last then put v 14 (v.get 14 ^^^ m64) else v
  let v := (List.finRange 12).foldl (fun v r ↦ round m (sigma.get r) v) v
  Vector.ofFn fun i ↦ (h.get i ^^^ v.get (Fin.castAdd 8 i) ^^^ v.get (Fin.natAdd 8 i)) &&& m64

/-- The loop over the full blocks but the last. -/
def absorb (input : Bytes) (h : Vector Nat 8) (t i : Nat) : Vector Nat 8 × Nat × Nat :=
  if 128 < input.length - i then
    absorb input (compress h ((input.drop i).take 128) (t + 128) false) (t + 128) (i + 128)
  else (h, t, i)
termination_by input.length - i
decreasing_by omega

/-- The bytes of a word, lowest first. -/
def writeWord : Nat → Nat → Bytes
  | 0, _ => []
  | j + 1, w => UInt8.ofNat (w &&& 0xff) :: writeWord j (w >>> 8)

/-- `blake2b256`. -/
def blake2b256 (input : Bytes) : Bytes :=
  let (h, t, i) := absorb input (put iv 0 (iv.get 0 ^^^ (0x01010000 ^^^ 32))) 0 0
  let rest := input.drop i
  let block := rest ++ List.replicate (128 - rest.length) 0
  let h := compress h block (t + (input.length - i)) true
  (List.finRange 4).flatMap fun k ↦ writeWord 8 (h.get (Fin.castLE (by decide) k))

/-! ## Words as integers -/

/-- Words, as the page holds them. -/
def nats {n : Nat} (v : Vector Word n) : Vector Nat n := v.map BitVec.toNat

@[simp] theorem get_nats {n : Nat} (v : Vector Word n) (i : Fin n) :
    (nats v).get i = (v.get i).toNat := by
  unfold nats
  rw [Vector.get_eq_getElem, Vector.getElem_map, Vector.get_eq_getElem]

theorem put_nats {n : Nat} (v : Vector Word n) (i : Fin n) (w : Word) :
    put (nats v) i w.toNat = nats (put v i w) := by
  unfold nats
  exact (Vector.map_set ..).symm

theorem and_m64 (n : Nat) : n &&& m64 = n % 2 ^ 64 := Nat.and_two_pow_sub_one_eq_mod n 64

theorem rotr_toNat (w : Word) {n : Nat} (hn : n < 64) :
    rotr w.toNat n = (w.rotateRight n).toNat := by
  unfold rotr
  rw [and_m64, Nat.or_mod_two_pow, BitVec.toNat_rotateRight, Nat.mod_eq_of_lt hn,
    Nat.mod_eq_of_lt (lt_of_le_of_lt (Nat.shiftRight_le _ _) w.isLt)]

theorem add_toNat (x y : Word) : (x.toNat + y.toNat) &&& m64 = (x + y).toNat := by
  rw [and_m64, BitVec.toNat_add]

theorem add_add_toNat (x y z : Word) :
    (x.toNat + y.toNat + z.toNat) &&& m64 = (x + (y + z)).toNat := by
  rw [and_m64, BitVec.toNat_add, BitVec.toNat_add, Nat.add_mod_mod, Nat.add_assoc]

/-- The page's mixing function is that of the standard. -/
theorem mix_nats (v : Work) (a b c d : Fin 16) (x y : Word) :
    mix (nats v) a b c d x.toNat y.toNat = nats (v.mix a b c d x y) := by
  unfold mix Work.mix Work.half Work.add Work.xrot
  simp only [get_nats, put_nats, add_toNat, add_add_toNat, ← BitVec.toNat_xor,
    rotr_toNat _ (by decide : 32 < 64), rotr_toNat _ (by decide : 24 < 64),
    rotr_toNat _ (by decide : 16 < 64), rotr_toNat _ (by decide : 63 < 64)]

theorem round_nats (m : Vector Word 16) (s : Vector (Fin 16) 16) (v : Work) :
    round (nats m) s (nats v) = nats (v.round m s) := by
  unfold round Work.round
  simp only [get_nats, mix_nats]

/-! ## Blocks -/

theorem readWord_eq (block : Bytes) (j : Fin 16) :
    readWord block j = ((Blake2b.words block).get j).toNat := by
  have hbyte : ∀ (b : UInt8) (w : Nat), (w <<< 8) ||| b.toNat = b.toNat + 2 ^ 8 * w := by
    intro b w
    rw [← Nat.shiftLeft_add_eq_or_of_lt b.toNat_lt, Nat.shiftLeft_eq, mul_comm, add_comm]
  rw [Blake2b.words_get]
  unfold readWord
  simp only [List.foldl_cons, List.foldl_nil, hbyte, Nat.mul_zero, Nat.add_zero]

theorem ofFn_readWord (block : Bytes) :
    (Vector.ofFn fun i : Fin 16 ↦ readWord block i) = nats (Blake2b.words block) := by
  apply Vector.ext
  intro i hi
  rw [Vector.getElem_ofFn]
  exact (readWord_eq block ⟨i, hi⟩).trans (get_nats _ ⟨i, hi⟩).symm

theorem schedule_eq : ∀ r : Fin 12, sigma.get r = Blake2b.schedule r := by
  decide +kernel

theorem rounds_nats (m : Vector Word 16) (rounds : List (Fin 12)) (v : Work) :
    rounds.foldl (fun v r ↦ round (nats m) (sigma.get r) v) (nats v) =
      nats ((rounds.map Fin.val).foldl (fun v r ↦ Work.round m (Blake2b.schedule r) v) v) := by
  induction rounds generalizing v with
  | nil => rfl
  | cons r rounds ih =>
      rw [List.foldl_cons, round_nats, ih, schedule_eq, List.map_cons, List.foldl_cons]

/-- The vector before the rounds; the upper word of the counter stays zero. -/
theorem start_nats (h : Vector Word 8) {t : Nat} (ht : t < 2 ^ 64) (last : Bool) :
    (let v : Vector Nat 16 := nats h ++ iv
      let v := put v 12 (v.get 12 ^^^ (t &&& m64))
      if last then put v 14 (v.get 14 ^^^ m64) else v) = nats (Blake2b.start h t last) := by
  have happend : (nats h ++ iv : Vector Nat 16) = nats (h ++ Blake2b.iv : Work) := by
    have hiv : iv = nats Blake2b.iv := by decide +kernel
    rw [hiv]
    exact Vector.map_append.symm
  have hcounter : t &&& m64 = (BitVec.ofNat 64 t).toNat := by
    rw [and_m64, BitVec.toNat_ofNat]
  have hones : m64 = (BitVec.allOnes 64).toNat := by decide
  have hupper : ∀ v : Work, put v 13 (v.get 13 ^^^ BitVec.ofNat 64 (t / 2 ^ 64)) = v := by
    intro v
    rw [Nat.div_eq_of_lt ht, BitVec.xor_zero]
    exact Vector.set_getElem_self (by decide)
  unfold Blake2b.start
  dsimp only
  rw [happend, hcounter, get_nats, ← BitVec.toNat_xor, put_nats, hupper]
  cases last with
  | false => rfl
  | true =>
      rw [if_pos rfl, if_pos rfl, get_nats, hones, ← BitVec.toNat_xor, put_nats]

/-- The page's compression function is that of the standard. -/
theorem compress_nats (h : Vector Word 8) (block : Bytes) {t : Nat} (ht : t < 2 ^ 64)
    (last : Bool) :
    compress (nats h) block t last = nats (Blake2b.compress h (Blake2b.words block) t last) := by
  have hstart := start_nats h ht last
  dsimp only at hstart
  unfold compress Blake2b.compress
  dsimp only
  rw [hstart, ofFn_readWord, rounds_nats]
  have hrounds : (List.finRange 12).map Fin.val = List.range 12 := by decide
  rw [hrounds]
  generalize (List.range 12).foldl (fun v i ↦ v.round (Blake2b.words block) (Blake2b.schedule i))
    (Blake2b.start h t last) = v
  apply Vector.ext
  intro i hi
  have hcut : ∀ w : Word, w.toNat &&& m64 = w.toNat := by
    intro w
    rw [and_m64, Nat.mod_eq_of_lt w.isLt]
  rw [Vector.getElem_ofFn, get_nats, get_nats, get_nats, ← BitVec.toNat_xor, ← BitVec.toNat_xor,
    hcut, nats, Vector.getElem_map, Vector.getElem_ofFn]

theorem writeWord_eq (j w : Nat) : writeWord j w = LittleEndian.fixed j w := by
  induction j generalizing w with
  | zero => rfl
  | succ j ih =>
      have hbyte : UInt8.ofNat (w &&& 0xff) = UInt8.ofNat w := by
        apply UInt8.toNat_inj.mp
        rw [Nat.and_two_pow_sub_one_eq_mod w 8, UInt8.toNat_ofNat', UInt8.toNat_ofNat',
          Nat.mod_mod]
      rw [writeWord, LittleEndian.fixed, hbyte, ih, Nat.shiftRight_eq_div_pow]

/-! ## The hash -/

/-- The loop absorbs every block but the last. -/
theorem absorb_eq (input : Bytes) (hlen : input.length < 2 ^ 64) {k : Nat}
    (hk : k ≤ Blake2b.blocks input.length - 1) :
    absorb input (nats (Blake2b.absorbed 32 input k)) (128 * k) (128 * k) =
      (nats (Blake2b.absorbed 32 input (Blake2b.blocks input.length - 1)),
        128 * (Blake2b.blocks input.length - 1), 128 * (Blake2b.blocks input.length - 1)) := by
  generalize hn : Blake2b.blocks input.length - 1 - k = n
  induction n generalizing k with
  | zero =>
      have hk : k = Blake2b.blocks input.length - 1 := by omega
      have hlast := Blake2b.length_le_blocks input.length
      rw [absorb, if_neg (by omega), ← hk]
  | succ n ih =>
      have hlt : k < Blake2b.blocks input.length - 1 := by omega
      have hmore := Blake2b.lt_blocks_iff.mp hlt
      have hnext : 128 * k + 128 = 128 * (k + 1) := by ring
      have hblock : (input.drop (128 * k)).take 128 = Blake2b.block input k := rfl
      rw [absorb, if_pos (by omega), hblock, compress_nats _ _ (by omega), hnext,
        mul_comm 128 (k + 1), ← Blake2b.absorbed_succ, mul_comm (k + 1) 128]
      exact ih hlt (by omega)

theorem initial_nats :
    put iv 0 (iv.get 0 ^^^ (0x01010000 ^^^ 32)) = nats (Blake2b.initial 32) := by
  decide +kernel

/-- The page computes the unkeyed digest of 32 bytes. -/
theorem blake2b256_eq (input : Bytes) (hlen : input.length < 2 ^ 64) :
    blake2b256 input = Blake2b.digest 32 input := by
  have hinit : put iv 0 (iv.get 0 ^^^ (0x01010000 ^^^ 32)) =
      nats (Blake2b.absorbed 32 input 0) := initial_nats
  have habsorb := absorb_eq input hlen (Nat.zero_le _)
  have hle := Blake2b.blocks_le input.length
  have hcount : 128 * (Blake2b.blocks input.length - 1) +
      (input.length - 128 * (Blake2b.blocks input.length - 1)) = input.length := by omega
  unfold blake2b256 Blake2b.digest
  rw [hinit, show (0 : Nat) = 128 * 0 from rfl, habsorb]
  dsimp only
  rw [hcount, compress_nats _ _ hlen, Blake2b.words_append_zeros, Blake2b.take_words,
    ← Blake2b.block_eq_drop]
  simp only [get_nats, writeWord_eq]

end Kascov.PageHash
