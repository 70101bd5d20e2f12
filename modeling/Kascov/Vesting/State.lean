import Kascov.Decode.Registry
import Kascov.Lib.LittleEndian
import Kascov.Token.Tables

/-!
# The state of a vesting lock

`vesting.rs`: the program of a lock is a fixed template around its state, and an
output is proven to carry a state by the hash of the program with that state in
it.  The two template fixtures and the hash are parameters.
-/

namespace Kascov

/-- `PREFIX` and `SUFFIX`: the template around the state. -/
structure VestingTemplate where
  opening : Bytes
  rest : Bytes

/-- `VestingState`. -/
structure VestingState where
  creator : Bytes32
  total : UInt64
  startScore : UInt64
  durationScore : UInt64
  claimed : UInt64
deriving DecidableEq

/-- `v.to_le_bytes()`. -/
def u64LeBytes (v : UInt64) : Bytes := LittleEndian.fixed 8 v.toNat

/-- `u64::from_le_bytes`. -/
def u64OfLeBytes (b : Bytes) : UInt64 := .ofNat (LittleEndian.value b)

/-- `splice_state`. -/
def spliceState (creator : Bytes32) (total start duration claimed : UInt64) : Bytes :=
  0x20 :: (creator.val ++ [total, start, duration, claimed].flatMap fun v ↦ 0x08 :: u64LeBytes v)

section Template

variable (tpl : VestingTemplate) (blake2b : Bytes → Bytes)

/-- `program_for_state`. -/
def programForState (st : VestingState) : Bytes :=
  tpl.opening ++
    spliceState st.creator st.total st.startScore st.durationScore st.claimed ++ tpl.rest

/-- `STATE_LEN`. -/
def vestingStateLen : Nat := 69

/-- `next_u64` of `decode_state`, at a position. -/
def nextU64 (state : Bytes) (at' : Nat) : Option UInt64 :=
  if state[at']? = some 0x08 then
    if at' + 9 ≤ state.length then some (u64OfLeBytes (byteRange state (at' + 1) (at' + 9)))
    else none
  else none

/-- `decode_state`. -/
def decodeVestingState (program : Bytes) : Option VestingState :=
  if program.length ≠ tpl.opening.length + vestingStateLen + tpl.rest.length ∨
      ¬tpl.opening <+: program ∨ ¬tpl.rest <:+ program then none
  else do
    let state := byteRange program tpl.opening.length (tpl.opening.length + vestingStateLen)
    guard (state.head? = some 0x20)
    let creator ← toBytes32 (byteRange state 1 33)
    let total ← nextU64 state 33
    let startScore ← nextU64 state 42
    let durationScore ← nextU64 state 51
    let claimed ← nextU64 state 60
    guard (claimed ≤ total ∧ 0 < durationScore)
    return { creator, total, startScore, durationScore, claimed }

/-- `state_commitment`. -/
def stateCommitment (st : VestingState) : Bytes := blake2b (programForState tpl st)

/-- `prove_state`. -/
def proveState (outputSpk : Bytes) (st : VestingState) : Bool :=
  match p2shHash outputSpk with
  | none => false
  | some want => stateCommitment tpl blake2b st = want

/-- The small integers a witness pushes. -/
def smallPushes (witness : Bytes) : List UInt64 :=
  (disassemble witness).1.filterMap fun inst ↦
    match inst.data with
    | some data => if data.length ≤ 8 then some (u64OfLeBytes data) else none
    | none =>
        if inst.opcode = 0x00 then some (u64OfLeBytes [])
        else if 0x51 ≤ inst.opcode ∧ inst.opcode ≤ 0x60 then
          some (u64OfLeBytes [inst.opcode - 0x50])
        else none

/-- The values of `claimed` a witness offers, zero among them. -/
def claimedCandidates (total : UInt64) (witness : Bytes) : List UInt64 :=
  (0 :: (smallPushes witness).filter (· ≤ total)).dedup.insertionSort (· ≤ ·)

/-- `recover_continuation_state`. -/
def recoverContinuationState (outputSpk : Bytes) (creator : Bytes32)
    (total startScore durationScore : UInt64) (witness : Bytes) : Option VestingState :=
  match ((claimedCandidates total witness).map fun claimed ↦
      ({ creator, total, startScore, durationScore, claimed } : VestingState)).filter
        (proveState tpl blake2b outputSpk) with
  | [only] => some only
  | _ => none

/-- `prove_genesis_lock`. -/
def proveGenesisLock (outputSpk : Bytes) (creator : Bytes32)
    (total startScore durationScore : UInt64) : Bool :=
  if durationScore = 0 then false
  else proveState tpl blake2b outputSpk { creator, total, startScore, durationScore, claimed := 0 }

end Template

/-! ## Programs of the template -/

section Facts

variable {tpl : VestingTemplate} {blake2b : Bytes → Bytes}

theorem proveState_iff {spk : Bytes} {st : VestingState} :
    proveState tpl blake2b spk st = true ↔
      p2shHash spk = some (blake2b (programForState tpl st)) := by
  unfold proveState
  cases h : p2shHash spk with
  | none => exact iff_of_false Bool.false_ne_true nofun
  | some want =>
      rw [decide_eq_true_iff, Option.some.injEq]
      exact eq_comm

theorem u64LeBytes_length (v : UInt64) : (u64LeBytes v).length = 8 := LittleEndian.length_fixed 8 _

theorem u64LeBytes_ofLeBytes {b : Bytes} (h : b.length = 8) : u64LeBytes (u64OfLeBytes b) = b := by
  have hlt := LittleEndian.value_lt b
  rw [h] at hlt
  rw [u64LeBytes, u64OfLeBytes, UInt64.toNat_ofNat_of_lt' (by simpa using hlt), ← h,
    LittleEndian.fixed_value]

theorem u64OfLeBytes_leBytes (v : UInt64) : u64OfLeBytes (u64LeBytes v) = v := by
  rw [u64OfLeBytes, u64LeBytes, LittleEndian.value_fixed (by simpa using v.toNat_lt),
    UInt64.ofNat_toNat]

theorem byteRange_join {bytes : Bytes} {i j k : Nat} (hij : i ≤ j) (hjk : j ≤ k)
    (hk : k ≤ bytes.length) : byteRange bytes i j ++ byteRange bytes j k = byteRange bytes i k := by
  have htake : bytes.take j = (bytes.take k).take j := by
    rw [List.take_take, Nat.min_eq_left hjk]
  have hle : i ≤ ((bytes.take k).take j).length := by
    rw [← htake, List.length_take]
    omega
  rw [byteRange, byteRange, byteRange, htake, ← List.drop_append_of_le_length hle,
    List.take_append_drop]

/-- What `next_u64` reads is a marker and a number. -/
theorem nextU64_eq_some {state : Bytes} {i : Nat} {v : UInt64} (h : nextU64 state i = some v) :
    byteRange state i (i + 9) = 0x08 :: u64LeBytes v := by
  unfold nextU64 at h
  split at h
  · rename_i hmark
    split at h
    · rename_i hlen
      obtain rfl := Option.some.inj h
      have hbody : (byteRange state (i + 1) (i + 9)).length = 8 := by
        rw [byteRange, List.length_drop, List.length_take_of_le hlen]
        omega
      have hhead : byteRange state i (i + 1) = [0x08] := by
        rw [byteRange, List.take_add_one, hmark, List.drop_append_of_le_length,
          List.drop_eq_nil_of_le]
        · rfl
        · rw [List.length_take]
          omega
        · rw [List.length_take]
          omega
      rw [u64LeBytes_ofLeBytes hbody, ← byteRange_join (Nat.le_add_right i 1) (by omega) hlen,
        hhead]
      rfl
    · cases h
  · cases h

theorem nextU64_middle (pre post : Bytes) (v : UInt64) :
    nextU64 (pre ++ ((0x08 :: u64LeBytes v) ++ post)) pre.length = some v := by
  have hmark : (pre ++ ((0x08 :: u64LeBytes v) ++ post))[pre.length]? = some 0x08 := by
    rw [List.getElem?_append_right le_rfl, Nat.sub_self]
    rfl
  have hlen : pre.length + 9 ≤ (pre ++ ((0x08 :: u64LeBytes v) ++ post)).length := by
    simp only [List.length_append, List.length_cons, u64LeBytes_length]
    omega
  have hbody : byteRange (pre ++ ((0x08 :: u64LeBytes v) ++ post)) (pre.length + 1)
      (pre.length + 9) = u64LeBytes v := by
    have h := byteRange_middle (pre ++ [0x08]) (u64LeBytes v) post
    rw [List.length_append, List.length_singleton, u64LeBytes_length, List.append_assoc] at h
    exact h
  rw [nextU64, if_pos hmark, if_pos hlen, hbody, u64OfLeBytes_leBytes]

theorem spliceState_length (creator : Bytes32) (total start duration claimed : UInt64) :
    (spliceState creator total start duration claimed).length = vestingStateLen := by
  simp only [spliceState, List.flatMap_cons, List.flatMap_nil, List.length_cons,
    List.length_append, List.length_nil, u64LeBytes_length, creator.2]
  rfl

/-- A program that starts and ends like the template has its state between them. -/
theorem template_split {head state tail : Bytes} {n : Nat}
    (hlen : state.length = head.length + n + tail.length) (hhead : head <+: state)
    (htail : tail <:+ state) : ∃ mid, state = head ++ (mid ++ tail) ∧ mid.length = n := by
  obtain ⟨body, rfl⟩ := hhead
  rw [List.length_append] at hlen
  obtain ⟨mid, rfl⟩ := List.suffix_of_suffix_length_le htail (List.suffix_append head body)
    (by omega)
  refine ⟨mid, rfl, ?_⟩
  rw [List.length_append] at hlen
  omega

theorem toBytes32_val {b : Bytes} {c : Bytes32} (h : toBytes32 b = some c) : c.val = b := by
  unfold toBytes32 at h
  split at h
  · exact congrArg Subtype.val (Option.some.inj h).symm
  · cases h

/-- **A decoded program is the program of its state.** -/
theorem programForState_of_decode {program : Bytes} {st : VestingState}
    (h : decodeVestingState tpl program = some st) :
    programForState tpl st = program ∧ st.claimed ≤ st.total := by
  unfold decodeVestingState at h
  split at h
  · cases h
  · rename_i hshape
    rw [not_or, not_or, not_not, not_not, not_not] at hshape
    obtain ⟨state, rfl, hstate⟩ := template_split hshape.1 hshape.2.1 hshape.2.2
    have hread := byteRange_middle tpl.opening state tpl.rest
    rw [hstate] at hread
    simp only [hread, Option.bind_eq_bind, Option.bind_eq_some_iff, Option.guard_eq_some',
      Option.pure_def, Option.some.injEq, exists_and_left, exists_const] at h
    obtain ⟨hfirst, creator, hcreator, total, htotal, start, hstart, duration, hduration, claimed,
      hclaimed, ⟨hle, -⟩, rfl⟩ := h
    refine ⟨?_, hle⟩
    have hlen : state.length = 69 := hstate
    have hone : byteRange state 0 1 = [0x20] := by
      obtain ⟨more, rfl⟩ := List.head?_eq_some_iff.mp hfirst
      rfl
    have hall : state = byteRange state 0 1 ++ byteRange state 1 33 ++ byteRange state 33 42 ++
        byteRange state 42 51 ++ byteRange state 51 60 ++ byteRange state 60 69 := by
      rw [byteRange_join (by omega) (by omega) (by omega),
        byteRange_join (by omega) (by omega) (by omega),
        byteRange_join (by omega) (by omega) (by omega),
        byteRange_join (by omega) (by omega) (by omega),
        byteRange_join (by omega) (by omega) (by omega), byteRange, ← hlen, List.take_length,
        List.drop_zero]
    rw [hone, ← toBytes32_val hcreator, nextU64_eq_some htotal, nextU64_eq_some hstart,
      nextU64_eq_some hduration, nextU64_eq_some hclaimed] at hall
    rw [hall]
    simp only [programForState, spliceState, List.flatMap_cons, List.flatMap_nil,
      List.append_assoc, List.cons_append, List.nil_append, List.append_nil]

/-- **A program of the template decodes to its state.** -/
theorem decode_programForState {st : VestingState} (hclaimed : st.claimed ≤ st.total)
    (hduration : 0 < st.durationScore) :
    decodeVestingState tpl (programForState tpl st) = some st := by
  have hlen := spliceState_length st.creator st.total st.startScore st.durationScore st.claimed
  have hread := byteRange_middle tpl.opening
    (spliceState st.creator st.total st.startScore st.durationScore st.claimed) tpl.rest
  rw [hlen, ← List.append_assoc] at hread
  have hshape : ¬((programForState tpl st).length ≠
      tpl.opening.length + vestingStateLen + tpl.rest.length ∨
        ¬tpl.opening <+: programForState tpl st ∨ ¬tpl.rest <:+ programForState tpl st) := by
    rw [not_or, not_or, not_not, not_not, not_not]
    refine ⟨?_, ?_, List.suffix_append _ _⟩
    · rw [programForState, List.length_append, List.length_append, hlen]
    · rw [programForState, List.append_assoc]
      exact List.prefix_append _ _
  have hcreator : byteRange (spliceState st.creator st.total st.startScore st.durationScore
      st.claimed) 1 33 = st.creator.val := by
    have h := byteRange_middle [0x20] st.creator.val
      ([st.total, st.startScore, st.durationScore, st.claimed].flatMap fun v ↦
        0x08 :: u64LeBytes v)
    rw [st.creator.2] at h
    exact h
  have hat : ∀ (pre post : Bytes) (v : UInt64) (i : Nat),
      spliceState st.creator st.total st.startScore st.durationScore st.claimed =
        pre ++ ((0x08 :: u64LeBytes v) ++ post) → pre.length = i →
      nextU64 (spliceState st.creator st.total st.startScore st.durationScore st.claimed) i =
        some v := by
    rintro pre post v i h rfl
    rw [h]
    exact nextU64_middle pre post v
  have htotal := hat (0x20 :: st.creator.val)
    ([st.startScore, st.durationScore, st.claimed].flatMap fun v ↦ 0x08 :: u64LeBytes v)
    st.total 33 rfl (by rw [List.length_cons, st.creator.2])
  have hstart := hat (0x20 :: (st.creator.val ++ 0x08 :: u64LeBytes st.total))
    ([st.durationScore, st.claimed].flatMap fun v ↦ 0x08 :: u64LeBytes v) st.startScore 42
    (by simp [spliceState]) (by simp [st.creator.2, u64LeBytes_length])
  have hscore := hat
    (0x20 :: (st.creator.val ++ 0x08 :: (u64LeBytes st.total ++ 0x08 :: u64LeBytes st.startScore)))
    ([st.claimed].flatMap fun v ↦ 0x08 :: u64LeBytes v) st.durationScore 51
    (by simp [spliceState]) (by simp [st.creator.2, u64LeBytes_length])
  have hlast := hat
    (0x20 :: (st.creator.val ++ 0x08 :: (u64LeBytes st.total ++ 0x08 :: (u64LeBytes st.startScore ++
      0x08 :: u64LeBytes st.durationScore)))) [] st.claimed 60
    (by simp [spliceState]) (by simp [st.creator.2, u64LeBytes_length])
  have hfirst : (spliceState st.creator st.total st.startScore st.durationScore
      st.claimed).head? = some 0x20 := rfl
  rw [decodeVestingState, if_neg hshape, programForState, hread]
  simp only [hfirst, hcreator, toBytes32, st.creator.2, dif_pos, htotal, hstart, hscore, hlast,
    hclaimed, hduration, guard, Option.bind_eq_bind, Option.bind_some, if_true, and_self]
  rfl

end Facts

end Kascov
