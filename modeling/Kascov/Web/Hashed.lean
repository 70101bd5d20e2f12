import Kascov.Web.CurveHash
import Kascov.Web.PageHash

/-!
# The two hashes of the browser

The trade module hashes with buffers that an earlier call has used: every compression writes
them before it reads them.  Both modules compute the unkeyed digest of 32 bytes.
-/

namespace Kascov.CurveHash

open Blake2b (Word Work put)
open scoped Blake2b

/-! ## The buffers of one compression -/

section Overwritten

variable {ι : Type} {n : Nat} {write : Vector Half n → ι → Vector Half n} {target : Vector Half n}

/-- What a turn writes stays, as every turn writes what belongs there. -/
theorem foldl_write_get (places : ι → List (Fin n))
    (hwrite : ∀ v i j, (write v i).get j = if j ∈ places i then target.get j else v.get j)
    (turns : List ι) (v : Vector Half n) (j : Fin n) :
    (turns.foldl write v).get j =
      if ∃ i ∈ turns, j ∈ places i then target.get j else v.get j := by
  induction turns generalizing v with
  | nil => simp
  | cons i turns ih =>
      rw [List.foldl_cons, ih, hwrite]
      by_cases hlater : ∃ i ∈ turns, j ∈ places i
      · obtain ⟨k, hk, hj⟩ := hlater
        rw [if_pos ⟨k, hk, hj⟩, if_pos ⟨k, List.mem_cons_of_mem i hk, hj⟩]
      · by_cases hnow : j ∈ places i
        · rw [if_neg hlater, if_pos hnow, if_pos ⟨i, List.mem_cons_self, hnow⟩]
        · have hnone : ¬∃ k ∈ i :: turns, j ∈ places k := by
            rintro ⟨k, hk, hj⟩
            rcases List.mem_cons.mp hk with rfl | hk
            · exact hnow hj
            · exact hlater ⟨k, hk, hj⟩
          rw [if_neg hlater, if_neg hnow, if_neg hnone]

/-- A loop that writes to every place leaves nothing of the buffer it found. -/
theorem foldl_write_eq (places : ι → List (Fin n))
    (hwrite : ∀ v i j, (write v i).get j = if j ∈ places i then target.get j else v.get j)
    {turns : List ι} (hall : ∀ j, ∃ i ∈ turns, j ∈ places i) (v : Vector Half n) :
    turns.foldl write v = target := by
  apply Vector.ext
  intro j hj
  exact (foldl_write_get places hwrite turns v ⟨j, hj⟩).trans (if_pos (hall ⟨j, hj⟩))

end Overwritten

theorem get_append_left {α : Type} {n n' : Nat} (v : Vector α n) (v' : Vector α n') (i : Fin n) :
    (v ++ v').get (Fin.castAdd n' i) = v.get i :=
  Vector.getElem_append_left i.isLt

theorem get_append_right {α : Type} {n n' : Nat} (v : Vector α n) (v' : Vector α n') (i : Fin n') :
    (v ++ v').get (Fin.natAdd n i) = v'.get i := by
  have h : (v ++ v')[n + i.val] = v'[n + i.val - n] :=
    Vector.getElem_append_right (Nat.add_lt_add_left i.isLt n) (Nat.le_add_right n i)
  simp only [Nat.add_sub_cancel_left] at h
  exact h

/-- A place of two buffers, one behind the other. -/
theorem append_cases {n n' : Nat} (j : Fin (n + n')) :
    (∃ i : Fin n, j = Fin.castAdd n' i) ∨ ∃ i : Fin n', j = Fin.natAdd n i := by
  induction j using Fin.addCases with
  | left i => exact Or.inl ⟨i, rfl⟩
  | right i => exact Or.inr ⟨i, rfl⟩

theorem state_append (h h' : Vector Word 8) :
    (state h ++ state h' : Vector Half 32) = work (h ++ h' : Vector Word 16) := by
  apply eq_halves_of_get
  · intro i j hj
    rcases @append_cases 8 8 i with ⟨i, rfl⟩ | ⟨i, rfl⟩
    · rcases @append_cases 16 16 j with ⟨j, rfl⟩ | ⟨j, rfl⟩
      · rw [get_append_left, get_append_left, halves_get_low rfl h i hj]
      · exact absurd hj (by simp; omega)
    · rcases @append_cases 16 16 j with ⟨j, rfl⟩ | ⟨j, rfl⟩
      · exact absurd hj (by simp; omega)
      · have hj : j.val = 2 * i := by simpa [Nat.mul_add] using hj
        rw [get_append_right, get_append_right, halves_get_low rfl h' i hj]
  · intro i j hj
    rcases @append_cases 8 8 i with ⟨i, rfl⟩ | ⟨i, rfl⟩
    · rcases @append_cases 16 16 j with ⟨j, rfl⟩ | ⟨j, rfl⟩
      · rw [get_append_left, get_append_left, halves_get_high rfl h i hj]
      · exact absurd hj (by simp; omega)
    · rcases @append_cases 16 16 j with ⟨j, rfl⟩ | ⟨j, rfl⟩
      · exact absurd hj (by simp; omega)
      · have hj : j.val = 2 * i + 1 := by
          simp at hj
          omega
        rw [get_append_right, get_append_right, halves_get_high rfl h' i hj]

/-- The state and the constants fill the first buffer. -/
theorem start_work (h : Vector Word 8) (v : Vector Half 32) :
    (List.finRange 16).foldl (fun (v : Vector Half 32) (i : Fin 16) ↦
      put (put v (Fin.castAdd 16 i) ((state h).get i)) (Fin.addNat i 16) (b2bIv32.get i)) v =
      work (h ++ Blake2b.iv : Vector Word 16) := by
  have hiv : b2bIv32 = state Blake2b.iv := by decide +kernel
  rw [← state_append, ← hiv]
  apply foldl_write_eq fun i ↦ [Fin.castAdd 16 i, Fin.natAdd 16 i]
  · intro v i j
    have hset : (put (put v (Fin.castAdd 16 i) ((state h).get i)) (Fin.addNat i 16)
        (b2bIv32.get i)).get j = if i.val + 16 = j then b2bIv32.get i else if i.val = j then (state h).get i else v.get j :=
      (Vector.getElem_set (by omega) j.isLt).trans (if_congr Iff.rfl rfl
        (Vector.getElem_set (by omega) j.isLt))
    rw [hset]
    by_cases hhigh : i.val + 16 = j
    · have hj : j = Fin.natAdd 16 i := Fin.ext (by simp; omega)
      rw [if_pos hhigh, hj, get_append_right, if_pos (by simp)]
    · by_cases hlow : i.val = j
      · have hj : j = Fin.castAdd 16 i := Fin.ext hlow.symm
        rw [if_neg hhigh, if_pos hlow, hj, get_append_left, if_pos (by simp)]
      · have hj : j ∉ [Fin.castAdd 16 i, Fin.natAdd 16 i] := by
          simp [Fin.ext_iff]
          omega
        rw [if_neg hhigh, if_neg hlow, if_neg hj]
  · intro j
    by_cases hj : j.val < 16
    · exact ⟨⟨j, hj⟩, List.mem_finRange _, by simp [Fin.ext_iff]⟩
    · exact ⟨⟨j - 16, by omega⟩, List.mem_finRange _, by
        simp [Fin.ext_iff]
        omega⟩

/-- A word takes another in, half by half. -/
theorem xorPair_work (v : Work) (a : Fin 16) (w : Word) :
    put (put (work v) (even a) ((work v).get (even a) ^^^ low w)) (even a + 1)
      ((put (work v) (even a) ((work v).get (even a) ^^^ low w)).get (even a + 1) ^^^ high w) =
      work (put v a (v.get a ^^^ w)) := by
  have hne : (even a).val ≠ (even a + 1 : Fin 32).val := by
    rw [even_succ]
    exact (Nat.lt_succ_self _).ne
  have hget : ∀ lo : Half, (put (work v) (even a) lo).get (even a + 1) = high (v.get a) :=
    fun lo ↦ (Vector.getElem_set_ne (even a).isLt (even a + 1 : Fin 32).isLt hne).trans
      (work_get_odd v a)
  rw [hget, work_get_even, ← low_xor, ← high_xor]
  exact setPair_work v a _

theorem ofNat_halves {t : Nat} (ht : t < 2 ^ 64) :
    BitVec.ofNat 32 t &&& 0xffffffff = low (BitVec.ofNat 64 t) ∧
      BitVec.ofNat 32 (t / 0x100000000) = high (BitVec.ofNat 64 t) := by
  have hones : (BitVec.ofNat 32 t &&& 0xffffffff) = BitVec.ofNat 32 t := BitVec.and_allOnes
  rw [hones]
  apply eq_halves
  rw [BitVec.toNat_ofNat, BitVec.toNat_ofNat, BitVec.toNat_ofNat]
  omega

/-- The marks of one compression: the counter, whose upper word stays zero, and the last
block's. -/
theorem marks_work (h : Vector Word 8) {t : Nat} (ht : t < 2 ^ 64) (last : Bool) :
    (let v := work (h ++ Blake2b.iv : Vector Word 16)
     let v := put v 24 (v.get 24 ^^^ (BitVec.ofNat 32 t &&& 0xffffffff))
     let v := put v 25 (v.get 25 ^^^ BitVec.ofNat 32 (t / 0x100000000))
     if last then
       let v := put v 28 (~~~v.get 28)
       put v 29 (~~~v.get 29)
     else v) = work (Blake2b.start h t last) := by
  obtain ⟨hlow, hhigh⟩ := ofNat_halves ht
  have hupper : ∀ v : Work, put v 13 (v.get 13 ^^^ BitVec.ofNat 64 (t / 2 ^ 64)) = v := by
    intro v
    rw [Nat.div_eq_of_lt ht, BitVec.xor_zero]
    exact Vector.set_getElem_self (by decide)
  have hcounter := xorPair_work (h ++ Blake2b.iv) 12 (BitVec.ofNat 64 t)
  have hmark : ∀ v : Work, put (put (work v) 28 (~~~(work v).get 28)) 29
      (~~~(put (work v) 28 (~~~(work v).get 28)).get 29) =
      work (put v 14 (v.get 14 ^^^ BitVec.allOnes 64)) := by
    intro v
    simp only [← BitVec.xor_allOnes]
    exact xorPair_work v 14 (BitVec.allOnes 64)
  unfold Blake2b.start
  dsimp only
  rw [hlow, hhigh, hupper]
  cases last with
  | false => exact hcounter
  | true =>
      rw [if_pos rfl, if_pos rfl, ← hmark]
      exact congrArg (fun v : Vector Half 32 ↦ put (put v 28 (~~~v.get 28)) 29
        (~~~(put v 28 (~~~v.get 28)).get 29)) hcounter

/-! ## The words of a block -/

/-- Bits above those of a number are added to it. -/
theorem xor_shiftLeft_toNat (x y : Half) {k : Nat} (hx : x.toNat < 2 ^ k)
    (hy : 2 ^ k * y.toNat < 2 ^ 32) : (x ^^^ (y <<< k)).toNat = x.toNat + 2 ^ k * y.toNat := by
  rw [BitVec.toNat_xor, BitVec.toNat_shiftLeft, Nat.shiftLeft_eq, mul_comm, Nat.mod_eq_of_lt hy,
    add_comm]
  apply Nat.eq_of_testBit_eq
  intro i
  rw [Nat.testBit_xor, Nat.testBit_two_pow_mul, Nat.testBit_two_pow_mul_add _ hx]
  by_cases hi : i < k
  · simp [hi, Nat.not_le.mpr hi]
  · have hzero : x.toNat.testBit i = false :=
      Nat.testBit_lt_two_pow (hx.trans_le (Nat.pow_le_pow_right (by decide) (not_lt.mp hi)))
    simp [hi, not_lt.mp hi, hzero]

/-- Four bytes, the lowest first. -/
theorem xor_four_toNat (x y z w : Half) (hx : x.toNat < 2 ^ 8) (hy : y.toNat < 2 ^ 8)
    (hz : z.toNat < 2 ^ 8) (hw : w.toNat < 2 ^ 8) :
    (x ^^^ (y <<< 8) ^^^ (z <<< 16) ^^^ (w <<< 24)).toNat =
      x.toNat + 2 ^ 8 * (y.toNat + 2 ^ 8 * (z.toNat + 2 ^ 8 * w.toNat)) := by
  have htwo := xor_shiftLeft_toNat x y hx (by omega)
  have hthree := xor_shiftLeft_toNat (x ^^^ (y <<< 8)) z
    (by omega : (x ^^^ (y <<< 8)).toNat < 2 ^ 16) (by omega)
  have hfour := xor_shiftLeft_toNat (x ^^^ (y <<< 8) ^^^ (z <<< 16)) w
    (by omega : (x ^^^ (y <<< 8) ^^^ (z <<< 16)).toNat < 2 ^ 24) (by omega)
  omega

theorem b2bGet32_toNat (arr : Vector UInt8 128) (i : Nat) :
    (b2bGet32 arr i).toNat = (arr.toList.getD i 0).toNat +
      2 ^ 8 * ((arr.toList.getD (i + 1) 0).toNat + 2 ^ 8 * ((arr.toList.getD (i + 2) 0).toNat +
        2 ^ 8 * (arr.toList.getD (i + 3) 0).toNat)) := by
  have hbyte : ∀ b : UInt8, (BitVec.ofNat 32 b.toNat).toNat = b.toNat := by
    intro b
    have hb := b.toNat_lt
    rw [BitVec.toNat_ofNat, Nat.mod_eq_of_lt (by omega)]
  have hlt : ∀ b : UInt8, (BitVec.ofNat 32 b.toNat).toNat < 2 ^ 8 := by
    intro b
    rw [hbyte]
    exact b.toNat_lt
  have hfour := xor_four_toNat _ _ _ _ (hlt (arr.toList.getD i 0)) (hlt (arr.toList.getD (i + 1) 0))
    (hlt (arr.toList.getD (i + 2) 0)) (hlt (arr.toList.getD (i + 3) 0))
  rw [hbyte, hbyte, hbyte, hbyte] at hfour
  exact hfour

/-- The words of a block fill the second buffer. -/
theorem words_work (b : Vector UInt8 128) (m : Vector Half 32) :
    (List.finRange 32).foldl (fun (m : Vector Half 32) (i : Fin 32) ↦
      put m i (b2bGet32 b (4 * i.val))) m = work (Blake2b.words b.toList) := by
  have hget : ∀ j : Fin 32, (work (Blake2b.words b.toList)).get j = b2bGet32 b (4 * j.val) := by
    intro j
    obtain ⟨i, hi⟩ : ∃ i : Fin 16, i.val = j.val / 2 := ⟨⟨j / 2, by omega⟩, rfl⟩
    have hlow := b2bGet32_toNat b (i.val * 8)
    have hhigh := b2bGet32_toNat b (i.val * 8 + 4)
    have hword := Blake2b.words_get b.toList i
    have hsum : (b2bGet32 b (i.val * 8)).toNat + 2 ^ 32 * (b2bGet32 b (i.val * 8 + 4)).toNat =
        ((Blake2b.words b.toList).get i).toNat := by
      rw [hlow, hhigh, hword]
      ring
    have hhalves := eq_halves hsum
    by_cases heven : j.val % 2 = 0
    · have hj : 4 * j.val = i.val * 8 := by omega
      rw [halves_get_low rfl _ i (by omega), hj, hhalves.1]
    · have hj : 4 * j.val = i.val * 8 + 4 := by omega
      rw [halves_get_high rfl _ i (by omega), hj, hhalves.2]
  apply foldl_write_eq fun i ↦ [i]
  · intro m i j
    have hset : (put m i (b2bGet32 b (4 * i.val))).get j =
        if i.val = j then b2bGet32 b (4 * i.val) else m.get j := Vector.getElem_set i.isLt j.isLt
    rw [hset, hget]
    by_cases hij : i.val = j
    · rw [if_pos hij, if_pos (by simp [Fin.ext_iff, hij]), hij]
    · rw [if_neg hij, if_neg (by simpa [Fin.ext_iff, eq_comm] using hij)]
  · exact fun j ↦ ⟨j, List.mem_finRange j, List.mem_singleton_self j⟩

/-- The state takes both halves of the vector in. -/
theorem state_xor (h : Vector Word 8) (v : Work) :
    (Vector.ofFn fun i : Fin 16 ↦ (state h).get i ^^^ (work v).get (Fin.castAdd 16 i) ^^^
      (work v).get (Fin.natAdd 16 i)) =
      state (Vector.ofFn fun i ↦
        h.get i ^^^ v.get (Fin.castAdd 8 i) ^^^ v.get (Fin.natAdd 8 i)) := by
  have hword : ∀ i : Fin 8, (Vector.ofFn fun i : Fin 8 ↦
      h.get i ^^^ v.get (Fin.castAdd 8 i) ^^^ v.get (Fin.natAdd 8 i)).get i =
      h.get i ^^^ v.get (Fin.castAdd 8 i) ^^^ v.get (Fin.natAdd 8 i) :=
    fun i ↦ Vector.getElem_ofFn i.isLt
  apply eq_halves_of_get
  · intro i j hj
    have hright : (Fin.natAdd 16 j : Fin 32).val = 2 * (Fin.natAdd 8 i : Fin 16).val := by
      simp
      omega
    refine (Vector.getElem_ofFn j.isLt).trans ?_
    rw [halves_get_low rfl h i hj, halves_get_low rfl v (Fin.castAdd 8 i) hj,
      halves_get_low rfl v (Fin.natAdd 8 i) hright, ← low_xor, ← low_xor]
    exact congrArg low (hword i).symm
  · intro i j hj
    have hright : (Fin.natAdd 16 j : Fin 32).val = 2 * (Fin.natAdd 8 i : Fin 16).val + 1 := by
      simp
      omega
    refine (Vector.getElem_ofFn j.isLt).trans ?_
    rw [halves_get_high rfl h i hj, halves_get_high rfl v (Fin.castAdd 8 i) hj,
      halves_get_high rfl v (Fin.natAdd 8 i) hright, ← high_xor, ← high_xor]
    exact congrArg high (hword i).symm

/-- `b2bCompress` is the compression function of the standard, whatever the buffers hold. -/
theorem b2bCompress_state (s : Scratch) (b : Vector UInt8 128) (h : Vector Word 8) {t : Nat}
    (ht : t < 2 ^ 64) (c : Nat) (last : Bool) :
    (b2bCompress s ⟨b, state h, t, c⟩ last).2 =
      ⟨b, state (Blake2b.compress h (Blake2b.words b.toList) t last), t, c⟩ := by
  have hmarks := marks_work h ht last
  have hrounds : (List.finRange 12).map Fin.val = List.range 12 := by decide
  dsimp only at hmarks
  unfold b2bCompress Blake2b.compress
  dsimp only
  rw [start_work, words_work, hmarks, rounds_work, hrounds]
  dsimp only
  rw [state_xor]

/-! ## The loop over the input -/

/-- What the context holds after `k` bytes: every full block that has something behind it is
absorbed, the rest waits in the buffer. -/
structure Fed (input : Bytes) (k : Nat) (ctx : Ctx) : Prop where
  counter : ctx.t = 128 * (Blake2b.blocks k - 1)
  used : ctx.c = k - 128 * (Blake2b.blocks k - 1)
  absorbed : ctx.h = state (Blake2b.absorbed 32 input (Blake2b.blocks k - 1))
  waiting : ctx.b.toList.take ctx.c = (input.drop (128 * (Blake2b.blocks k - 1))).take ctx.c

theorem take_set_succ {α : Type} (l : List α) {c : Nat} (hc : c < l.length) (x : α) :
    (l.set c x).take (c + 1) = l.take c ++ [x] := by
  have hlen : c < (l.set c x).length := by rw [List.length_set]; exact hc
  rw [List.take_succ_eq_append_getElem hlen, List.take_set_of_le (Nat.le_refl c),
    List.getElem_set_self]

theorem fed_zero (input : Bytes) (b : Vector UInt8 128) :
    Fed input 0 ⟨b, state (Blake2b.initial 32), 0, 0⟩ where
  counter := rfl
  used := rfl
  absorbed := rfl
  waiting := rfl

/-- A byte goes behind those that wait. -/
theorem Fed.push {input : Bytes} {k : Nat} (hk : k < input.length) {ctx : Ctx} {n : Nat}
    (hn : Blake2b.blocks (k + 1) - 1 = n) (hcounter : ctx.t = 128 * n) (hused : ctx.c = k - 128 * n)
    (habsorbed : ctx.h = state (Blake2b.absorbed 32 input n))
    (hwaiting : ctx.b.toList.take ctx.c = (input.drop (128 * n)).take ctx.c) :
    Fed input (k + 1) { ctx with b := ctx.b.setIfInBounds ctx.c input[k], c := ctx.c + 1 } := by
  have hlast := Blake2b.length_le_blocks (k + 1)
  have hle : 128 * n ≤ k := by
    unfold Blake2b.blocks at hn
    omega
  have hroom : ctx.c < ctx.b.toList.length := by
    rw [Vector.length_toList]
    omega
  have hnext : ctx.c < (input.drop (128 * n)).length := by
    rw [List.length_drop]
    omega
  have hbyte : (input.drop (128 * n))[ctx.c] = input[k] := by
    rw [List.getElem_drop]
    congr 1
    omega
  exact {
    counter := by rw [hn, hcounter]
    used := by
      rw [hn]
      dsimp only
      omega
    absorbed := by rw [hn, habsorbed]
    waiting := by
      rw [hn, Vector.toList_setIfInBounds, take_set_succ _ hroom, hwaiting,
        List.take_succ_eq_append_getElem hnext, hbyte] }

theorem Fed.feed {input : Bytes} {k : Nat} (hk : k < input.length) (hlen : input.length < 2 ^ 64)
    {s : Scratch} {ctx : Ctx} (h : Fed input k ctx) :
    Fed input (k + 1) (feed (s, ctx) input[k]).2 := by
  obtain ⟨b, state', t, c⟩ := ctx
  obtain ⟨hcounter, hused, habsorbed, hwaiting⟩ := h
  have hle := Blake2b.blocks_le k
  have hlast := Blake2b.length_le_blocks k
  dsimp only at hcounter hused habsorbed hwaiting
  by_cases hfull : c = 128
  · -- the block is full and a byte comes after it
    have hblock : b.toList = Blake2b.block input (Blake2b.blocks k - 1) := by
      rw [hfull, List.take_of_length_le (by simp)] at hwaiting
      exact hwaiting
    have hcompress := b2bCompress_state s b (Blake2b.absorbed 32 input (Blake2b.blocks k - 1))
      (t := t + c) (by omega) c false
    have hstep : (CurveHash.feed (s, ⟨b, state', t, c⟩) input[k]).2 =
        { (b2bCompress s ⟨b, state', t + c, c⟩ false).2 with
          b := (b2bCompress s ⟨b, state', t + c, c⟩ false).2.b.setIfInBounds 0 input[k]
          c := 0 + 1 } := by
      simp only [CurveHash.feed, if_pos hfull]
    have hn : Blake2b.blocks (k + 1) - 1 = Blake2b.blocks k - 1 + 1 := by
      unfold Blake2b.blocks at hused hle ⊢
      omega
    have hcount : t + c = (Blake2b.blocks k - 1 + 1) * 128 := by omega
    rw [hblock, hcount, ← Blake2b.absorbed_succ] at hcompress
    rw [hstep, habsorbed, hcount, hcompress]
    exact @Fed.push input k hk ⟨b, _, _, 0⟩ _ hn (mul_comm _ _) (by dsimp only; omega) rfl rfl
  · have hn : Blake2b.blocks (k + 1) - 1 = Blake2b.blocks k - 1 := by
      unfold Blake2b.blocks at hused hle hlast ⊢
      omega
    have hstep : (CurveHash.feed (s, ⟨b, state', t, c⟩) input[k]).2 =
        ⟨b.setIfInBounds c input[k], state', t, c + 1⟩ := by
      simp only [CurveHash.feed, if_neg hfull]
    rw [hstep]
    exact @Fed.push input k hk ⟨b, state', t, c⟩ _ hn hcounter hused habsorbed hwaiting

/-- After the whole input. -/
theorem fed_foldl (input : Bytes) (hlen : input.length < 2 ^ 64) (s : Scratch)
    (b : Vector UInt8 128) :
    Fed input input.length
      (input.foldl feed (s, ⟨b, state (Blake2b.initial 32), 0, 0⟩)).2 := by
  have hfed : ∀ k ≤ input.length, Fed input k
      ((input.take k).foldl feed (s, ⟨b, state (Blake2b.initial 32), 0, 0⟩)).2 := by
    intro k hk
    induction k with
    | zero => exact fed_zero input b
    | succ k ih =>
        rw [List.take_succ_eq_append_getElem hk, List.foldl_append]
        exact Fed.feed hk hlen (ih (Nat.le_of_succ_le hk))
  have hall := hfed input.length (Nat.le_refl _)
  rw [List.take_length] at hall
  exact hall

/-- Zeros fill the rest of the block. -/
theorem fill_toList {b : Vector UInt8 128} {c : Nat} (hc : c ≤ 128) :
    (fill b c).toList = b.toList.take c ++ List.replicate (128 - c) 0 := by
  generalize hn : 128 - c = n
  induction n generalizing b c with
  | zero =>
      rw [fill, if_neg (by omega), List.take_of_length_le (by simp; omega)]
      simp
  | succ n ih =>
      rw [fill, if_pos (by omega), ih (by omega) (by omega), Vector.toList_setIfInBounds,
        take_set_succ _ (by simp; omega), List.append_assoc, List.replicate_succ]
      rfl

/-! ## The bytes of the result -/

/-- A byte of a half; the sign bit does not reach it. -/
theorem half_byte (x : Half) {k : Nat} (hk : k < 4) :
    UInt8.ofNat ((x.sshiftRight (8 * k) &&& 0xff).toNat) = UInt8.ofNat (x.toNat / 2 ^ (8 * k)) := by
  have hbits : x.sshiftRight (8 * k) &&& 0xff = (x >>> (8 * k)) &&& 0xff := by
    apply BitVec.eq_of_getLsbD_eq
    intro i hi
    have hmask : (0xff : Half).getLsbD i = decide (i < 8) := Nat.testBit_two_pow_sub_one 8 i
    rw [BitVec.getLsbD_and, BitVec.getLsbD_and, hmask, BitVec.getLsbD_sshiftRight,
      BitVec.getLsbD_ushiftRight]
    by_cases hlow : i < 8
    · simp [hlow, hi, (by omega : 8 * k + i < 32)]
    · simp [hlow]
  apply UInt8.toNat_inj.mp
  rw [hbits, BitVec.toNat_and, BitVec.toNat_ushiftRight, UInt8.toNat_ofNat', UInt8.toNat_ofNat',
    Nat.shiftRight_eq_div_pow]
  exact (congrArg (· % 2 ^ 8) (Nat.and_two_pow_sub_one_eq_mod _ 8)).trans (Nat.mod_mod _ _)

theorem fixed_eight (n : Nat) :
    LittleEndian.fixed 8 n = (List.finRange 8).map fun j ↦ UInt8.ofNat (n / 2 ^ (8 * j.val)) := by
  have hplaces : List.finRange 8 = [0, 1, 2, 3, 4, 5, 6, 7] := by decide
  rw [hplaces]
  simp [LittleEndian.fixed, Nat.div_div_eq_div_mul]

/-- A byte of a word, from the half that holds it. -/
theorem low_byte (w : Word) {k : Nat} (hk : k < 4) :
    UInt8.ofNat ((low w).toNat / 2 ^ (8 * k)) = UInt8.ofNat (w.toNat / 2 ^ (8 * k)) := by
  have hpow : (2 : Nat) ^ 32 = 2 ^ (8 * k) * 2 ^ (32 - 8 * k) := by
    rw [← pow_add]
    congr 1
    omega
  have hdvd : 2 ^ 8 ∣ 2 ^ (32 - 8 * k) := pow_dvd_pow 2 (by omega)
  apply UInt8.toNat_inj.mp
  rw [UInt8.toNat_ofNat', UInt8.toNat_ofNat', low_toNat, hpow, Nat.mod_mul_right_div_self,
    Nat.mod_mod_of_dvd _ hdvd]

theorem high_byte (w : Word) (k : Nat) :
    (high w).toNat / 2 ^ (8 * k) = w.toNat / 2 ^ (8 * (4 + k)) := by
  rw [high_toNat, Nat.div_div_eq_div_mul, ← pow_add, Nat.mul_add]

/-- The bytes of the state are those of its words. -/
theorem outByte_eq (h : Vector Word 8) (k : Fin 4) (j : Fin 8) :
    outByte (state h) ⟨8 * k + j, by omega⟩ =
      UInt8.ofNat ((h.get (Fin.castLE (by decide) k)).toNat / 2 ^ (8 * j.val)) := by
  unfold outByte
  dsimp only
  rw [half_byte _ (Nat.mod_lt _ (by decide))]
  by_cases hj : j.val < 4
  · have hplace : (8 * k.val + j.val) / 4 = 2 * k := by omega
    have hrest : (8 * k.val + j.val) % 4 = j := by omega
    have hget := halves_get_low rfl h (Fin.castLE (by decide) k)
      (j := ⟨(8 * k.val + j.val) / 4, by omega⟩) hplace
    rw [hget, hrest, low_byte _ hj]
  · have hplace : (8 * k.val + j.val) / 4 = 2 * k + 1 := by omega
    have hrest : 4 + (8 * k.val + j.val) % 4 = j := by omega
    have hget := halves_get_high rfl h (Fin.castLE (by decide) k)
      (j := ⟨(8 * k.val + j.val) / 4, by omega⟩) hplace
    rw [hget, high_byte, hrest]

theorem outBytes_eq (h : Vector Word 8) :
    (List.finRange 32).map (outByte (state h)) =
      (h.toList.flatMap fun w ↦ LittleEndian.fixed 8 w.toNat).take 32 := by
  have hplaces : List.finRange 32 = (List.finRange 4).flatMap fun k ↦
      (List.finRange 8).map fun j ↦ ⟨8 * k + j, by omega⟩ := by decide
  rw [Blake2b.take_words, hplaces, List.map_flatMap]
  congr 1
  funext k
  rw [List.map_map, fixed_eight]
  apply List.map_congr_left
  intro j _
  exact outByte_eq h k j

theorem initial_state :
    put b2bIv32 0 (b2bIv32.get 0 ^^^ (0x01010000 ^^^ 32)) = state (Blake2b.initial 32) := by
  decide +kernel

/-- The trade module computes the unkeyed digest of 32 bytes. -/
theorem blake2b256_eq (s : Scratch) (bytes : Bytes) (hlen : bytes.length < 2 ^ 64) :
    (blake2b256 s bytes).2 = Blake2b.digest 32 bytes := by
  have hfed := fed_foldl bytes hlen s (Vector.replicate 128 0)
  unfold blake2b256 Blake2b.digest
  rw [initial_state]
  dsimp only
  generalize bytes.foldl feed (s, ⟨Vector.replicate 128 0, state (Blake2b.initial 32), 0, 0⟩) =
    after at hfed ⊢
  obtain ⟨s', b, h, t, c⟩ := after
  obtain ⟨hcounter, hused, habsorbed, hwaiting⟩ := hfed
  have hle := Blake2b.blocks_le bytes.length
  have hlast := Blake2b.length_le_blocks bytes.length
  dsimp only at hcounter hused habsorbed hwaiting
  have hrest : b.toList.take c = Blake2b.block bytes (Blake2b.blocks bytes.length - 1) := by
    rw [hwaiting, Blake2b.block_eq_drop, List.take_of_length_le]
    rw [List.length_drop]
    omega
  have hcount : t + c = bytes.length := by omega
  have hcompress := b2bCompress_state s' (fill b c)
    (Blake2b.absorbed 32 bytes (Blake2b.blocks bytes.length - 1)) hlen (max c 128) true
  rw [fill_toList (by omega), Blake2b.words_append_zeros, hrest] at hcompress
  dsimp only
  rw [hcount, habsorbed, hcompress, outBytes_eq]

end Kascov.CurveHash

namespace Kascov

/-- Both modules return the digest of 32 bytes that the standard defines, the trade module
whatever an earlier call left in its buffers. -/
theorem browser_hashes (bytes : Bytes) (hlen : bytes.length < 2 ^ 53) (s : CurveHash.Scratch) :
    (CurveHash.blake2b256 s bytes).2 = Blake2b.digest 32 bytes ∧
      PageHash.blake2b256 bytes = Blake2b.digest 32 bytes := by
  have hword : bytes.length < 2 ^ 64 := hlen.trans (by decide)
  exact ⟨CurveHash.blake2b256_eq s bytes hword, PageHash.blake2b256_eq bytes hword⟩

/-- A block of zeros, after a call that left ones in the buffers. -/
theorem browser_hashes_block :
    (List.replicate 128 (0 : UInt8)).length < 2 ^ 53 ∧
      (CurveHash.blake2b256 ⟨Vector.replicate 32 1, Vector.replicate 32 1⟩
        (List.replicate 128 0)).2 = PageHash.blake2b256 (List.replicate 128 0) := by
  have hlen : (List.replicate 128 (0 : UInt8)).length < 2 ^ 53 := by
    rw [List.length_replicate]
    decide
  obtain ⟨htrade, hpage⟩ := browser_hashes (List.replicate 128 0) hlen
    ⟨Vector.replicate 32 1, Vector.replicate 32 1⟩
  exact ⟨hlen, htrade.trans hpage.symm⟩

end Kascov
