import Kascov.Decode.Spans
import Kascov.Market.Push
import Kascov.Token.Proofs

/-!
# The two push parsers

`push_units` walks a program for its pushes and their byte ranges; `arg_pushes`
takes them from a disassembly.  They find the same pushes, and a range is the span
of the instruction that pushes there.
-/

namespace Kascov

open Tiling

/-- What an instruction pushes, to `arg_pushes`. -/
def argValue (inst : Instruction) : Option Bytes :=
  match inst.data with
  | some data => some data
  | none =>
      if inst.opcode = 0x00 then some []
      else if 0x51 ≤ inst.opcode ∧ inst.opcode ≤ 0x60 then some [inst.opcode - 0x50]
      else none

theorem argPushes_eq (sig : Bytes) :
    argPushes sig = (disassemble sig).1.filterMap argValue := rfl

/-- The push unit of a span. -/
def unitOf (span : InstructionSpan) : Option PushUnit :=
  (argValue span.inst).map fun value ↦ ⟨span.start, span.stop, value⟩

theorem unitOf_eq_some {span : InstructionSpan} {u : PushUnit} :
    unitOf span = some u ↔
      argValue span.inst = some u.value ∧ span.start = u.start ∧ span.stop = u.stop := by
  obtain ⟨start, stop, value⟩ := u
  rw [unitOf, Option.map_eq_some_iff]
  constructor
  · rintro ⟨v, hv, heq⟩
    obtain ⟨rfl, rfl, rfl⟩ := PushUnit.mk.inj heq
    exact ⟨hv, rfl, rfl⟩
  · rintro ⟨hv, rfl, rfl⟩
    exact ⟨value, hv, rfl⟩

theorem Declares.lengthBytes_eq {opcode : UInt8} {header : Bytes} {len : Nat}
    (h : Declares opcode header len) : lengthBytes opcode = header.length := by
  cases h with
  | direct hop =>
      have hne : ∀ n : UInt8, 0x4b < n → opcode ≠ n := by
        rintro n hn rfl
        exact absurd hop.2 (UInt8.not_le.mpr hn)
      rw [lengthBytes, if_neg (hne 0x4c (by decide)), if_neg (hne 0x4d (by decide)),
        if_neg (hne 0x4e (by decide))]
      rfl
  | pushData1 => rfl
  | pushData2 => rfl
  | pushData4 => rfl

/-- The loop of `push_units` finds the pushes of a run of the disassembler. -/
theorem Reads.pushUnitsFrom_eq {offset : Nat} {bytes : Bytes} {insts : List Instruction}
    {truncated : Bool} (h : Reads offset bytes insts truncated) :
    ∀ fuel, bytes.length ≤ fuel →
      pushUnitsFrom (offset + bytes.length) fuel offset bytes =
        (spans (offset + bytes.length) insts).filterMap unitOf := by
  induction h with
  | done offset =>
      intro fuel _
      cases fuel with
      | zero => rfl
      | succ fuel => rfl
  | @op offset opcode rest insts truncated hlen tail ih =>
      intro fuel hfuel
      rw [List.length_cons] at hfuel
      obtain ⟨fuel, rfl⟩ := Nat.exists_eq_succ_of_ne_zero (by omega : fuel ≠ 0)
      have hend : offset + 1 + rest.length = offset + (opcode :: rest).length := by
        rw [List.length_cons]
        omega
      have htail := ih fuel (by omega)
      have hnext := tail.head_offset
      rw [hend] at htail hnext
      rw [pushUnitsFrom, spans, hnext, List.filterMap_cons, unitOf, argValue]
      dsimp only
      split
      · rw [htail]
        rfl
      · split
        · rw [htail]
          rfl
        · rw [hlen, htail]
          rfl
  | @push offset opcode header data rest insts truncated hlen tail ih =>
      intro fuel hfuel
      simp only [List.length_cons, List.length_append] at hfuel
      obtain ⟨fuel, rfl⟩ := Nat.exists_eq_succ_of_ne_zero (by omega : fuel ≠ 0)
      have hend : offset + (1 + header.length + data.length) + rest.length =
          offset + (opcode :: (header ++ (data ++ rest))).length := by
        simp only [List.length_cons, List.length_append]
        omega
      have htail := ih fuel (by omega)
      have hnext := tail.head_offset
      rw [hend] at htail hnext
      have hzero := hlen.ne_zero
      have hsmall := hlen.not_small
      have hstop : offset + 1 + lengthBytes opcode + data.length =
          offset + (1 + header.length + data.length) := by
        rw [hlen.lengthBytes_eq]
        omega
      rw [pushUnitsFrom, if_neg hzero, if_neg hsmall, dataLength_eq_some.mpr ⟨header, rfl, hlen⟩]
      dsimp only
      rw [hstop, if_neg (by omega), List.take_left, List.drop_left, htail, spans, hnext]
      rfl
  | @cut offset opcode rest data len hlen hcut =>
      intro fuel hfuel
      rw [List.length_cons] at hfuel
      obtain ⟨fuel, rfl⟩ := Nat.exists_eq_succ_of_ne_zero (by omega : fuel ≠ 0)
      obtain ⟨header, hrest, hdecl⟩ := dataLength_eq_some.mp hlen
      have hzero := hdecl.ne_zero
      have hsmall := hdecl.not_small
      have hlength : rest.length = header.length + data.length := by
        rw [hrest, List.length_append]
      rw [pushUnitsFrom, if_neg hzero, if_neg hsmall, hlen]
      dsimp only
      rw [if_pos (by rw [hdecl.lengthBytes_eq, List.length_cons]; omega)]
      simp [spans, unitOf, argValue, hzero, hsmall]

/-- The push units of a program are those of its spans. -/
theorem pushUnits_eq (program : Bytes) :
    pushUnits program = (scriptSpans program).filterMap unitOf := by
  have h := (disassemble_reads program).pushUnitsFrom_eq program.length le_rfl
  rw [Nat.zero_add] at h
  exact h

/-- The two parsers read a program alike. -/
structure PushesAgree (program : Bytes) : Prop where
  values : (pushUnits program).map (·.value) = argPushes program
  ordered : (pushUnits program).Pairwise fun a b ↦ a.stop ≤ b.start
  nonempty : ∀ u ∈ pushUnits program, u.start < u.stop ∧ u.stop ≤ program.length
  /-- A range is the span of the instruction that pushes the value. -/
  spans : ∀ u ∈ pushUnits program, ∃ span ∈ scriptSpans program,
    span.start = u.start ∧ span.stop = u.stop ∧ argValue span.inst = some u.value
  /-- A byte outside the ranges belongs to an instruction that pushes nothing. -/
  outside : ∀ pos < program.length,
    (∀ u ∈ pushUnits program, ¬(u.start ≤ pos ∧ pos < u.stop)) →
      ∃ span ∈ scriptSpans program, span.start ≤ pos ∧ pos < span.stop ∧
        argValue span.inst = none

/-- **The push parsers agree.** -/
theorem pushes_agree (program : Bytes) : PushesAgree program := by
  have htiles := (disassemble_lossless program).tiles
  have hunits := pushUnits_eq program
  have hmem : ∀ u, u ∈ pushUnits program ↔
      ∃ span ∈ scriptSpans program, unitOf span = some u := by
    intro u
    rw [hunits, List.mem_filterMap]
  refine ⟨?_, ?_, ?_, ?_, ?_⟩
  · have hvalue : ∀ span, (unitOf span).map (·.value) = argValue span.inst := by
      intro span
      rw [unitOf, Option.map_map]
      exact Option.map_id'
    rw [hunits, List.map_filterMap, argPushes_eq, scriptSpans]
    conv_rhs => rw [← spans_map_inst program.length (disassemble program).1]
    rw [List.filterMap_map]
    exact List.filterMap_congr fun span _ ↦ hvalue span
  · rw [hunits]
    refine htiles.pairwise.filterMap _ fun a b hab u hu v hv ↦ ?_
    rw [← (unitOf_eq_some.mp hu).2.2, ← (unitOf_eq_some.mp hv).2.1]
    exact hab
  · intro u hu
    obtain ⟨span, hspan, heq⟩ := (hmem u).mp hu
    obtain ⟨-, hstart, hstop⟩ := unitOf_eq_some.mp heq
    rw [← hstart, ← hstop]
    exact ⟨htiles.nonempty hspan, htiles.le_stop hspan⟩
  · intro u hu
    obtain ⟨span, hspan, heq⟩ := (hmem u).mp hu
    obtain ⟨hvalue, hstart, hstop⟩ := unitOf_eq_some.mp heq
    exact ⟨span, hspan, hstart, hstop, hvalue⟩
  · intro pos hpos hout
    obtain ⟨span, ⟨hspan, hge, hlt⟩, -⟩ := htiles.existsUnique (Nat.zero_le pos) hpos
    refine ⟨span, hspan, hge, hlt, ?_⟩
    cases hvalue : argValue span.inst with
    | none => rfl
    | some value =>
        have hunit : unitOf span = some ⟨span.start, span.stop, value⟩ :=
          unitOf_eq_some.mpr ⟨hvalue, rfl, rfl⟩
        exact absurd ⟨hge, hlt⟩ (hout _ ((hmem _).mpr ⟨span, hspan, hunit⟩))

end Kascov
