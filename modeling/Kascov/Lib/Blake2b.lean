import Kascov.Lib.LittleEndian
import Mathlib.Tactic.Common

/-!
# BLAKE2b

The hash of RFC 7693 with words of 64 bits, without a key: the mixing function `G`, the
compression function `F`, and the digest of a list of bytes.
-/

namespace Blake2b

abbrev Word := BitVec 64

scoped instance instNeZeroEight : NeZero 8 := ⟨by decide⟩

scoped instance instNeZeroSixteen : NeZero 16 := ⟨by decide⟩

/-- A vector with another entry at a place. -/
abbrev put {α : Type} {n : Nat} (v : Vector α n) (i : Fin n) (x : α) : Vector α n := v.set i x

/-- The initialization vector. -/
def iv : Vector Word 8 :=
  #v[0x6a09e667f3bcc908, 0xbb67ae8584caa73b, 0x3c6ef372fe94f82b, 0xa54ff53a5f1d36f1,
    0x510e527fade682d1, 0x9b05688c2b3e6c1f, 0x1f83d9abfb41bd6b, 0x5be0cd19137e2179]

/-- The message schedule of one round. -/
abbrev Schedule := Vector (Fin 16) 16

/-- The permutations `SIGMA`, one after the other. -/
def sigma : Vector (Fin 16) 160 :=
  #v[0, 1, 2, 3, 4, 5, 6, 7, 8, 9, 10, 11, 12, 13, 14, 15,
    14, 10, 4, 8, 9, 15, 13, 6, 1, 12, 0, 2, 11, 7, 5, 3,
    11, 8, 12, 0, 5, 2, 15, 13, 10, 14, 3, 6, 7, 1, 9, 4,
    7, 9, 3, 1, 13, 12, 11, 14, 2, 6, 5, 10, 4, 0, 15, 8,
    9, 0, 5, 7, 2, 4, 10, 15, 14, 1, 11, 12, 6, 8, 3, 13,
    2, 12, 6, 10, 0, 11, 8, 3, 4, 13, 7, 5, 15, 14, 1, 9,
    12, 5, 1, 15, 14, 13, 4, 10, 0, 7, 6, 3, 9, 2, 8, 11,
    13, 11, 7, 14, 12, 1, 3, 9, 5, 0, 15, 4, 8, 6, 2, 10,
    6, 15, 14, 9, 11, 3, 0, 8, 12, 2, 13, 7, 1, 4, 10, 5,
    10, 2, 8, 4, 7, 6, 1, 5, 15, 11, 9, 14, 3, 12, 13, 0]

/-- The permutation of round `i`. -/
def schedule (i : Nat) : Schedule :=
  Vector.ofFn fun k ↦ sigma.get (Fin.ofNat 160 (16 * (i % 10) + k))

/-- The local vector. -/
abbrev Work := Vector Word 16

/-- `v[a] := v[a] + w`. -/
def Work.add (v : Work) (a : Fin 16) (w : Word) : Work := put v a (v.get a + w)

/-- `v[a] := (v[a] ^ v[b]) >>> k`, a rotation. -/
def Work.xrot (v : Work) (a b : Fin 16) (k : Nat) : Work :=
  put v a ((v.get a ^^^ v.get b).rotateRight k)

/-- One half of the mixing function, which takes one word of the message in. -/
def Work.half (v : Work) (a b c d : Fin 16) (x : Word) (k l : Nat) : Work :=
  let v := v.add a (v.get b + x)
  let v := v.xrot d a k
  let v := v.add c (v.get d)
  v.xrot b c l

/-- The mixing function `G`. -/
def Work.mix (v : Work) (a b c d : Fin 16) (x y : Word) : Work :=
  (v.half a b c d x 32 24).half a b c d y 16 63

/-- One round: the columns and the diagonals are mixed. -/
def Work.round (m : Vector Word 16) (s : Schedule) (v : Work) : Work :=
  let v := v.mix 0 4 8 12 (m.get (s.get 0)) (m.get (s.get 1))
  let v := v.mix 1 5 9 13 (m.get (s.get 2)) (m.get (s.get 3))
  let v := v.mix 2 6 10 14 (m.get (s.get 4)) (m.get (s.get 5))
  let v := v.mix 3 7 11 15 (m.get (s.get 6)) (m.get (s.get 7))
  let v := v.mix 0 5 10 15 (m.get (s.get 8)) (m.get (s.get 9))
  let v := v.mix 1 6 11 12 (m.get (s.get 10)) (m.get (s.get 11))
  let v := v.mix 2 7 8 13 (m.get (s.get 12)) (m.get (s.get 13))
  v.mix 3 4 9 14 (m.get (s.get 14)) (m.get (s.get 15))

/-- The vector before the rounds: the state, the constants, the offset of the input in
two words, and the mark of the last block. -/
def start (h : Vector Word 8) (t : Nat) (last : Bool) : Work :=
  let v : Work := h ++ iv
  let v := put v 12 (v.get 12 ^^^ BitVec.ofNat 64 t)
  let v := put v 13 (v.get 13 ^^^ BitVec.ofNat 64 (t / 2 ^ 64))
  if last then put v 14 (v.get 14 ^^^ BitVec.allOnes 64) else v

/-- The compression function `F`. -/
def compress (h : Vector Word 8) (m : Vector Word 16) (t : Nat) (last : Bool) : Vector Word 8 :=
  let v := (List.range 12).foldl (fun v i ↦ v.round m (schedule i)) (start h t last)
  Vector.ofFn fun i ↦ h.get i ^^^ v.get (Fin.castAdd 8 i) ^^^ v.get (Fin.natAdd 8 i)

/-- The words of a block, which zeros fill up. -/
def words (block : List UInt8) : Vector Word 16 :=
  Vector.ofFn fun j ↦ BitVec.ofNat 64 (LittleEndian.value ((block.drop (8 * j)).take 8))

/-- The block `d[i]` of the data. -/
def block (data : List UInt8) (i : Nat) : List UInt8 := (data.drop (128 * i)).take 128

/-- The number of blocks; empty data are one block of zeros. -/
def blocks (length : Nat) : Nat := max 1 ((length + 127) / 128)

/-- The state that the parameters of an unkeyed digest give: its length, fanout 1, depth 1. -/
def initial (nn : Nat) : Vector Word 8 :=
  put iv 0 (iv.get 0 ^^^ 0x01010000 ^^^ BitVec.ofNat 64 nn)

/-- The state after a number of blocks, none of them the last. -/
def absorbed (nn : Nat) (data : List UInt8) (n : Nat) : Vector Word 8 :=
  (List.range n).foldl
    (fun h i ↦ compress h (words (block data i)) ((i + 1) * 128) false) (initial nn)

/-- The unkeyed digest of `nn` bytes. -/
def digest (nn : Nat) (data : List UInt8) : List UInt8 :=
  let n := blocks data.length - 1
  let h := compress (absorbed nn data n) (words (block data n)) data.length true
  (h.toList.flatMap fun w ↦ LittleEndian.fixed 8 w.toNat).take nn

/-- The example of the RFC's appendix for a digest of 64 bytes, its first eight. -/
example : (digest 64 [97, 98, 99]).take 8 = [0xba, 0x80, 0xa5, 0x3f, 0x98, 0x1c, 0x4d, 0x0d] := by
  decide +kernel

/-! ## Blocks and words -/

theorem absorbed_succ (nn : Nat) (data : List UInt8) (n : Nat) :
    absorbed nn data (n + 1) =
      compress (absorbed nn data n) (words (block data n)) ((n + 1) * 128) false := by
  unfold absorbed
  rw [List.range_succ, List.foldl_append]
  rfl

/-- A block that is not the last has something behind it. -/
theorem lt_blocks_iff {n length : Nat} : n < blocks length - 1 ↔ 128 * (n + 1) < length := by
  unfold blocks
  omega

/-- The last block ends with the data. -/
theorem length_le_blocks (length : Nat) : length ≤ 128 * (blocks length - 1) + 128 := by
  unfold blocks
  omega

theorem blocks_le (length : Nat) : 128 * (blocks length - 1) ≤ length := by
  unfold blocks
  omega

theorem block_eq_drop {data : List UInt8} :
    block data (blocks data.length - 1) = data.drop (128 * (blocks data.length - 1)) := by
  unfold block
  apply List.take_of_length_le
  rw [List.length_drop]
  have h := length_le_blocks data.length
  omega

/-- The bytes of a list, as a number, one by one. -/
theorem value_take_succ (bytes : List UInt8) (k : Nat) :
    LittleEndian.value (bytes.take (k + 1)) =
      (bytes.getD 0 0).toNat + 2 ^ 8 * LittleEndian.value ((bytes.drop 1).take k) := by
  cases bytes with
  | nil => simp
  | cons b bytes => simp

/-- A word of a block, from its eight bytes; past the end of the block they are zero. -/
theorem words_get (bytes : List UInt8) (j : Fin 16) :
    ((words bytes).get j).toNat =
      (bytes.getD (j * 8) 0).toNat + 2 ^ 8 * ((bytes.getD (j * 8 + 1) 0).toNat +
        2 ^ 8 * ((bytes.getD (j * 8 + 2) 0).toNat + 2 ^ 8 * ((bytes.getD (j * 8 + 3) 0).toNat +
        2 ^ 8 * ((bytes.getD (j * 8 + 4) 0).toNat + 2 ^ 8 * ((bytes.getD (j * 8 + 5) 0).toNat +
        2 ^ 8 * ((bytes.getD (j * 8 + 6) 0).toNat +
        2 ^ 8 * (bytes.getD (j * 8 + 7) 0).toNat)))))) := by
  have hlt : LittleEndian.value ((bytes.drop (8 * j)).take 8) < 2 ^ 64 := by
    apply (LittleEndian.value_lt _).trans_le
    exact (Nat.pow_le_pow_right (by decide) (List.length_take_le 8 _)).trans (by decide)
  have hget : ∀ i k, (bytes.drop i).getD k 0 = bytes.getD (i + k) 0 := by
    intro i k
    rw [List.getD_eq_getElem?_getD, List.getElem?_drop, List.getD_eq_getElem?_getD]
  have hword : (words bytes).get j =
      BitVec.ofNat 64 (LittleEndian.value ((bytes.drop (8 * j)).take 8)) :=
    Vector.getElem_ofFn j.isLt
  rw [hword, BitVec.toNat_ofNat, Nat.mod_eq_of_lt hlt, mul_comm 8]
  simp only [value_take_succ, List.drop_drop, hget, List.take_zero, LittleEndian.value_nil,
    Nat.add_zero, Nat.mul_zero, Nat.add_assoc]

/-- Zeros behind a block change no word. -/
theorem words_append_zeros (bytes : List UInt8) (n : Nat) :
    words (bytes ++ List.replicate n 0) = words bytes := by
  have hget : ∀ k, (bytes ++ List.replicate n 0).getD k 0 = bytes.getD k 0 := by
    intro k
    rw [List.getD_eq_getElem?_getD, List.getD_eq_getElem?_getD, List.getElem?_append]
    split
    · rfl
    · next h =>
        rw [List.getElem?_eq_none (not_lt.mp h), List.getElem?_replicate]
        split
        · rfl
        · rfl
  apply Vector.ext
  intro i hi
  have h := words_get (bytes ++ List.replicate n 0) ⟨i, hi⟩
  simp only [hget] at h
  exact BitVec.eq_of_toNat_eq (h.trans (words_get bytes ⟨i, hi⟩).symm)

/-- The first 32 bytes of the state are its first four words. -/
theorem take_words (h : Vector Word 8) :
    (h.toList.flatMap fun w ↦ LittleEndian.fixed 8 w.toNat).take 32 =
      (List.finRange 4).flatMap fun k ↦
        LittleEndian.fixed 8 (h.get (Fin.castLE (by decide) k)).toNat := by
  have hlist : h.toList = (List.finRange 8).map h.get := by
    apply List.ext_getElem
    · simp
    · intro i hi hi'
      rw [List.getElem_map, List.getElem_finRange, Vector.getElem_toList]
      rfl
  have hsplit : List.finRange 8 = (List.finRange 4).map (Fin.castLE (by decide)) ++
      (List.finRange 4).map (Fin.natAdd 4) := by decide
  rw [hlist, hsplit, List.map_append, List.flatMap_append, List.take_left']
  · rw [List.map_map, List.flatMap_map]
    rfl
  · simp only [List.length_flatMap, LittleEndian.length_fixed, List.map_map]
    rfl

end Blake2b
