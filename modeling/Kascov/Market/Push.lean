import Kascov.Decode.Disasm
import Mathlib.Data.List.Dedup

/-!
# Programs compared push by push

`push_units` and the helpers the fixture matchers share: a candidate is walked
in lockstep with a pinned build, and may differ from it in the declared slots
only.
-/

namespace Kascov

/-- One push unit: the byte range of the push, and the value it pushes. -/
structure PushUnit where
  start : Nat
  stop : Nat
  value : Bytes
deriving DecidableEq, Repr

/-- How many bytes spell the length of what an opcode pushes. -/
def lengthBytes (opcode : UInt8) : Nat :=
  if opcode = 0x4c then 1
  else if opcode = 0x4d then 2
  else if opcode = 0x4e then 4
  else 0

/-- The loop of `push_units` over a program of `n` bytes, at position `i`.
Unlike `disassemble` it counts the small numbers as pushes, and a push that is
cut off ends it. -/
def pushUnitsFrom (n : Nat) : Nat → Nat → Bytes → List PushUnit
  | 0, _, _ => []
  | _ + 1, _, [] => []
  | fuel + 1, i, opcode :: rest =>
      if opcode = 0x00 then ⟨i, i + 1, []⟩ :: pushUnitsFrom n fuel (i + 1) rest
      else if 0x51 ≤ opcode ∧ opcode ≤ 0x60 then
        ⟨i, i + 1, [opcode - 0x50]⟩ :: pushUnitsFrom n fuel (i + 1) rest
      else
        match dataLength opcode rest with
        | none => pushUnitsFrom n fuel (i + 1) rest
        | some (len, data) =>
            let stop := i + 1 + lengthBytes opcode + len
            if n < stop then []
            else ⟨i, stop, data.take len⟩ :: pushUnitsFrom n fuel stop (data.drop len)

/-- `push_units`. -/
def pushUnits (program : Bytes) : List PushUnit :=
  pushUnitsFrom program.length program.length 0 program

/-- The loop of `lockstep_matches`, from unit `i`. -/
def lockstepFrom (fixture program : Bytes) (slots : List Nat) :
    Nat → Nat → Nat → List PushUnit → List PushUnit → Bool
  | i, fpos, cpos, f :: fs, c :: cs =>
      byteRange fixture fpos f.start == byteRange program cpos c.start &&
        (slots.contains i ||
          byteRange fixture f.start f.stop == byteRange program c.start c.stop) &&
        lockstepFrom fixture program slots (i + 1) f.stop c.stop fs cs
  | _, fpos, cpos, [], _ => fixture.drop fpos == program.drop cpos
  | _, _, _, _ :: _, [] => false

/-- `lockstep_matches`: byte-equal outside the slots. -/
def lockstepMatches (fixture : Bytes) (fixtureUnits : List PushUnit) (program : Bytes)
    (candUnits : List PushUnit) (slots : List Nat) : Bool :=
  lockstepFrom fixture program slots 0 0 0 fixtureUnits candUnits

/-- A program matches itself, whatever its slots. -/
theorem lockstepFrom_self (fixture : Bytes) (slots : List Nat) (i pos : Nat)
    (units : List PushUnit) :
    lockstepFrom fixture fixture slots i pos pos units units = true := by
  induction units generalizing i pos with
  | nil => simp [lockstepFrom]
  | cons u units ih => simp [lockstepFrom, ih]

/-- A little-endian number. -/
def leNat (bytes : Bytes) : Nat := bytes.foldr (fun b n ↦ b.toNat + 2 ^ 8 * n) 0

/-- `le_i64`: at most eight bytes, and not negative. -/
def leI64 (bytes : Bytes) : Option Int :=
  if bytes = [] ∨ 8 < bytes.length then none
  else if leNat bytes < 2 ^ 63 then some (leNat bytes)
  else none

/-- The values pushed at the sites of a slot group, each once. -/
def groupValues {α : Type} [DecidableEq α] (read : PushUnit → α) (cand : List PushUnit)
    (idx : List Nat) : List α :=
  (idx.filterMap fun i ↦ cand[i]?.map read).dedup

/-- `agreed_i64`: every site of the group decodes to one number. -/
def agreedI64 (cand : List PushUnit) (idx : List Nat) : Option Int :=
  match groupValues (fun u ↦ leI64 u.value) cand idx with
  | [some v] => some v
  | _ => none

/-- `agreed_bytes`: every site of the group pushes one value. -/
def agreedBytes (cand : List PushUnit) (idx : List Nat) : Option Bytes :=
  match groupValues (·.value) cand idx with
  | [v] => some v
  | _ => none

end Kascov
