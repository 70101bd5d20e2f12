import Kascov.Kcc1.Push
import Kascov.Token.Tables

/-!
# Invocations

The signature script that spends a committed program: the pushes of the arguments, the
dispatch tag where the program has several branches, and the program itself.  The
reader inverts the writer, and the reveal reads the same program.
-/

namespace Kascov

open PrefixCodec

/-- A four-byte array. -/
abbrev Bytes4 := { b : Bytes // b.length = 4 }

/-- `try_into`, for four bytes. -/
def toBytes4 (b : Bytes) : Option Bytes4 := if h : b.length = 4 then some ⟨b, h⟩ else none

/-- `signature_script`. -/
def signatureScript (argPushes : Bytes) (dispatch : Option Bytes4) (program : Bytes) : Bytes :=
  let out := argPushes
  let out :=
    match dispatch with
    | some tag => out ++ 0x04 :: tag.val
    | none => out
  out ++ encodePush program

structure Invocation where
  args : List Bytes
  dispatch : Option Bytes4
  program : Bytes
deriving DecidableEq

/-- The program and the tag, taken from the end of the pushes. -/
def takeInvocation (pushes : List Bytes) (multiBranch : Bool) : Option Invocation :=
  match pushes.getLast? with
  | none => none
  | some program =>
      if program = [] then none
      else if multiBranch then
        match pushes.dropLast.getLast?.bind toBytes4 with
        | none => none
        | some tag => some ⟨pushes.dropLast.dropLast, some tag, program⟩
      else some ⟨pushes.dropLast, none, program⟩

/-- `read_invocation`.  Every push read is a byte at least, so the length of the script
is fuel enough. -/
def readInvocation (sigScript : Bytes) (multiBranch : Bool) : Option Invocation :=
  match readAll readPushMinimal sigScript.length sigScript with
  | none => none
  | some pushes => takeInvocation pushes multiBranch

/-- `envelope_spk`, for a hash function. -/
def envelopeSpk (hash32 : Bytes → Bytes32) (program : Bytes) : Bytes :=
  0xaa :: 0x20 :: ((hash32 program).val ++ [0x87])

/-- `read_invocation_checked`. -/
def readInvocationChecked (hash32 : Bytes → Bytes32) (spk sigScript : Bytes)
    (multiBranch : Bool) : Option Invocation :=
  match readInvocation sigScript multiBranch with
  | none => none
  | some inv => if envelopeSpk hash32 inv.program = spk then some inv else none

/-! ## The pushes of an invocation -/

namespace Invocation

/-- The payloads pushed, in order. -/
def pushes (inv : Invocation) : List Bytes :=
  inv.args ++ inv.dispatch.toList.map (·.val) ++ [inv.program]

/-- The script that `signature_script` builds. -/
def script (inv : Invocation) : Bytes :=
  signatureScript (inv.args.flatMap encodePush) inv.dispatch inv.program

end Invocation

theorem toBytes4_eq_some {b : Bytes} {tag : Bytes4} : toBytes4 b = some tag ↔ b = tag.val := by
  unfold toBytes4
  split
  · rw [Option.some.injEq, Subtype.ext_iff]
  · rename_i hlen
    refine ⟨nofun, ?_⟩
    rintro rfl
    exact absurd tag.2 hlen

/-- Four bytes are pushed as the tag is. -/
theorem encodePush_tag (tag : Bytes4) : encodePush tag.val = 0x04 :: tag.val := by
  obtain ⟨tag, htag⟩ := tag
  have hsmall : smallOpcode tag = none := by
    match tag, htag with
    | [_, _, _, _], _ => rfl
  rw [encodePush, hsmall]
  dsimp only
  rw [htag]
  rfl

theorem Invocation.script_eq (inv : Invocation) : inv.script = inv.pushes.flatMap encodePush := by
  obtain ⟨args, dispatch, program⟩ := inv
  cases dispatch with
  | none => simp [Invocation.script, Invocation.pushes, signatureScript]
  | some tag =>
      simp [Invocation.script, Invocation.pushes, signatureScript, encodePush_tag]

theorem takeInvocation_eq_some {pushes : List Bytes} {multiBranch : Bool} {inv : Invocation} :
    takeInvocation pushes multiBranch = some inv ↔
      pushes = inv.pushes ∧ inv.program ≠ [] ∧ inv.dispatch.isSome = multiBranch := by
  constructor
  · intro h
    unfold takeInvocation at h
    split at h
    · cases h
    · rename_i program hlast
      obtain ⟨front, rfl⟩ := List.getLast?_eq_some_iff.mp hlast
      rw [List.dropLast_concat] at h
      split at h
      · cases h
      · rename_i hne
        split at h
        · rename_i hmulti
          split at h
          · cases h
          · rename_i tag htag
            obtain ⟨payload, hpayload, hfour⟩ := Option.bind_eq_some_iff.mp htag
            obtain ⟨args, rfl⟩ := List.getLast?_eq_some_iff.mp hpayload
            obtain rfl := toBytes4_eq_some.mp hfour
            rw [List.dropLast_concat] at h
            obtain rfl := Option.some.inj h
            exact ⟨rfl, hne, hmulti.symm⟩
        · rename_i hsingle
          obtain rfl := Option.some.inj h
          refine ⟨?_, hne, ?_⟩
          · simp [Invocation.pushes]
          · simpa using hsingle
  · rintro ⟨rfl, hne, rfl⟩
    obtain ⟨args, dispatch, program⟩ := inv
    have hlast : (Invocation.pushes ⟨args, dispatch, program⟩).getLast? = some program := by
      simp [Invocation.pushes]
    have hinit : (Invocation.pushes ⟨args, dispatch, program⟩).dropLast =
        args ++ dispatch.toList.map (·.val) := List.dropLast_concat
    unfold takeInvocation
    rw [hlast, hinit]
    dsimp only at hne ⊢
    rw [if_neg hne]
    cases dispatch with
    | none => simp
    | some tag => simp [toBytes4_eq_some.mpr rfl]

/-! ## The two readers -/

/-- The lengths that a push can carry. -/
structure Invocation.Fits (inv : Invocation) : Prop where
  args : ∀ a ∈ inv.args, Fits32 a
  program : Fits32 inv.program

theorem Invocation.Fits.pushes {inv : Invocation} (h : inv.Fits) : ∀ a ∈ inv.pushes, Fits32 a := by
  intro a ha
  rcases List.mem_append.mp ha with ha | ha
  · rcases List.mem_append.mp ha with ha | ha
    · exact h.args a ha
    · obtain ⟨tag, -, rfl⟩ := List.mem_map.mp ha
      exact (Nat.le_of_eq tag.2).trans_lt (by decide)
  · rw [List.mem_singleton.mp ha]
    exact h.program

/-- What is read is what was written. -/
theorem readInvocation_eq_some {sigScript : Bytes} {multiBranch : Bool} {inv : Invocation} :
    readInvocation sigScript multiBranch = some inv ↔
      inv.Fits ∧ inv.program ≠ [] ∧ inv.dispatch.isSome = multiBranch ∧
        inv.script = sigScript := by
  constructor
  · intro h
    unfold readInvocation at h
    split at h
    · cases h
    · rename_i pushes hread
      obtain ⟨rfl, hne, hmulti⟩ := takeInvocation_eq_some.mp h
      obtain ⟨hfits, rfl⟩ := encodePush_exact.readAll_written hread
      refine ⟨⟨fun a ha ↦ hfits a ?_, hfits _ ?_⟩, hne, hmulti, inv.script_eq⟩
      · exact List.mem_append_left _ (List.mem_append_left _ ha)
      · exact List.mem_append_right _ (List.mem_singleton_self _)
  · rintro ⟨hfits, hne, hmulti, rfl⟩
    have hread := encodePush_exact.readAll_flatMap hfits.pushes _ le_rfl
    rw [readInvocation, inv.script_eq, hread]
    exact takeInvocation_eq_some.mpr ⟨rfl, hne, hmulti⟩

theorem p2shHash_envelopeSpk (hash32 : Bytes → Bytes32) (program : Bytes) :
    p2shHash (envelopeSpk hash32 program) = some (hash32 program).val := by
  have hlen := (hash32 program).2
  unfold p2shHash envelopeSpk
  rw [if_pos ⟨by simp [hlen], rfl, rfl, by simp [hlen]⟩]
  rw [List.drop_succ_cons, List.drop_succ_cons, List.drop_zero, List.take_left' hlen]

/-- The pushes of a script are read one by one. -/
theorem reads_flatMap_encodePush {values : List Bytes} (hfits : ∀ a ∈ values, Fits32 a)
    (offset : Nat) : ∃ insts, insts.map pushValue = values.map some ∧
      ∀ rest tail truncated,
        Reads (offset + (values.flatMap encodePush).length) rest tail truncated →
          Reads offset (values.flatMap encodePush ++ rest) (insts ++ tail) truncated := by
  induction values generalizing offset with
  | nil => exact ⟨[], rfl, fun _ _ _ h ↦ h⟩
  | cons value values ih =>
      obtain ⟨insts, hpushed, hreads⟩ := ih (fun a ha ↦ hfits a (List.mem_cons_of_mem _ ha))
        (offset + (encodePush value).length)
      refine ⟨pushedInst offset value :: insts, ?_, ?_⟩
      · rw [List.map_cons, List.map_cons, pushValue_pushedInst, hpushed]
      · intro rest tail truncated h
        rw [List.flatMap_cons, List.length_append, ← Nat.add_assoc] at h
        rw [List.flatMap_cons, List.append_assoc]
        exact Reads.encodePush (hfits value List.mem_cons_self) (hreads rest tail truncated h)

/-- The last instruction of a signature script is the push of its program. -/
theorem disassemble_script {inv : Invocation} (hfits : inv.Fits) : ∃ insts offset,
    disassemble inv.script = (insts ++ [pushedInst offset inv.program], false) := by
  have hargs : ∀ a ∈ inv.args ++ inv.dispatch.toList.map (·.val), Fits32 a :=
    fun a ha ↦ hfits.pushes a (List.mem_append_left _ ha)
  obtain ⟨insts, -, hreads⟩ := reads_flatMap_encodePush hargs 0
  have hlast := hreads _ _ _ (Reads.encodePush hfits.program (.done _))
  rw [List.append_nil] at hlast
  refine ⟨insts, 0 + (List.flatMap encodePush (inv.args ++
    inv.dispatch.toList.map (·.val))).length, Reads.disassemble_eq ?_⟩
  rw [inv.script_eq, Invocation.pushes, List.flatMap_append, List.flatMap_singleton]
  exact hlast

/-- A program that a numeric opcode pushes: one byte, from 1 to 16 or 0x81. -/
def OwnedByOpcode (program : Bytes) : Prop :=
  ∃ v : UInt8, program = [v] ∧ (v = 0x81 ∨ 1 ≤ v ∧ v ≤ 16)

theorem smallOpcode_isSome {program : Bytes} (hne : program ≠ []) :
    (smallOpcode program).isSome = true ↔ OwnedByOpcode program := by
  unfold OwnedByOpcode
  match program with
  | [] => exact absurd rfl hne
  | [v] =>
      simp only [smallOpcode, List.cons.injEq, and_true, exists_eq_left']
      by_cases h81 : v = 0x81
      · simp [h81]
      · by_cases hrange : 1 ≤ v ∧ v ≤ 16
        · simp [h81, hrange]
        · simp [h81, hrange]
  | a :: b :: rest => simp [smallOpcode]

/-- The reveal of a script that the checked reader accepts. -/
theorem p2shReveal_of_checked {hash32 : Bytes → Bytes32} {spk sigScript : Bytes}
    {multiBranch : Bool} {inv : Invocation}
    (h : readInvocationChecked hash32 spk sigScript multiBranch = some inv) :
    p2shReveal (fun b ↦ (hash32 b).val) spk sigScript =
      if (smallOpcode inv.program).isSome then none else some inv.program := by
  unfold readInvocationChecked at h
  split at h
  · cases h
  · rename_i found hread
    split at h
    · rename_i hspk
      obtain rfl := Option.some.inj h
      obtain ⟨hfits, -, -, rfl⟩ := readInvocation_eq_some.mp hread
      obtain ⟨insts, offset, hdis⟩ := disassemble_script hfits
      rw [p2shReveal, ← hspk, p2shHash_envelopeSpk]
      simp only [hdis, List.getLast?_append, List.getLast?_singleton, Option.some_or,
        Option.bind_some, pushedInst_data, Bool.false_eq_true, if_false]
      cases (smallOpcode found.program).isSome with
      | true => rfl
      | false => simp
    · cases h

theorem checked_program_ne_nil {hash32 : Bytes → Bytes32} {spk sigScript : Bytes}
    {multiBranch : Bool} {inv : Invocation}
    (h : readInvocationChecked hash32 spk sigScript multiBranch = some inv) :
    inv.program ≠ [] := by
  unfold readInvocationChecked at h
  split at h
  · cases h
  · rename_i found hread
    split at h
    · obtain rfl := Option.some.inj h
      exact (readInvocation_eq_some.mp hread).2.1
    · cases h

/-- The law of the envelope: the reader inverts the writer in both directions, and the
reveal gives the program read, where it was pushed as data. -/
structure EnvelopeLaw (hash32 : Bytes → Bytes32) : Prop where
  reads : ∀ (args : List Bytes) (tag : Option Bytes4) (program : Bytes),
    (∀ a ∈ args, Fits32 a) → Fits32 program → program ≠ [] →
      readInvocation (signatureScript (args.flatMap encodePush) tag program) tag.isSome =
        some ⟨args, tag, program⟩
  rewrites : ∀ sigScript multiBranch inv, readInvocation sigScript multiBranch = some inv →
    signatureScript (inv.args.flatMap encodePush) inv.dispatch inv.program = sigScript
  reveals : ∀ spk sigScript multiBranch inv,
    readInvocationChecked hash32 spk sigScript multiBranch = some inv →
      ¬OwnedByOpcode inv.program →
        p2shReveal (fun b ↦ (hash32 b).val) spk sigScript = some inv.program
  hides : ∀ spk sigScript multiBranch inv,
    readInvocationChecked hash32 spk sigScript multiBranch = some inv →
      OwnedByOpcode inv.program → p2shReveal (fun b ↦ (hash32 b).val) spk sigScript = none

theorem envelope_law (hash32 : Bytes → Bytes32) : EnvelopeLaw hash32 where
  reads args tag program hargs hprogram hne :=
    readInvocation_eq_some.mpr ⟨⟨hargs, hprogram⟩, hne, rfl, rfl⟩
  rewrites sigScript multiBranch inv h := (readInvocation_eq_some.mp h).2.2.2
  reveals spk sigScript multiBranch inv h hnot := by
    have hne := checked_program_ne_nil h
    rw [p2shReveal_of_checked h, if_neg fun hsome ↦ hnot ((smallOpcode_isSome hne).mp hsome)]
  hides spk sigScript multiBranch inv h howned := by
    have hne := checked_program_ne_nil h
    rw [p2shReveal_of_checked h, if_pos ((smallOpcode_isSome hne).mpr howned)]

/-- A payload whose length the four bytes do not hold is not read back, and the reveal
does not see a program that an opcode pushes. -/
theorem envelope_lost :
    (¬∀ (args : List Bytes) (tag : Option Bytes4) (program : Bytes), program ≠ [] →
      readInvocation (signatureScript (args.flatMap encodePush) tag program) tag.isSome =
        some ⟨args, tag, program⟩) ∧
    ¬∀ (hash32 : Bytes → Bytes32) spk sigScript multiBranch inv,
      readInvocationChecked hash32 spk sigScript multiBranch = some inv →
        p2shReveal (fun b ↦ (hash32 b).val) spk sigScript = some inv.program := by
  constructor
  · intro h
    have hread := h [List.replicate (2 ^ 32) 0] none [0x05] (List.cons_ne_nil _ _)
    have hfits := (readInvocation_eq_some.mp hread).1.args _ (List.mem_singleton_self _)
    rw [Fits32, List.length_replicate] at hfits
    exact lt_irrefl _ hfits
  · intro h
    have hreveal := h (fun _ ↦ ⟨List.replicate 32 0, List.length_replicate⟩)
      (0xaa :: 0x20 :: (List.replicate 32 0 ++ [0x87])) [0x55] false ⟨[], none, [0x05]⟩
      (by decide +kernel)
    exact absurd hreveal (by decide +kernel)

end Kascov
