import Kascov.Model.Types

/-!
# The disassembler

`disasm.rs`: a script is read opcode by opcode, each push with the data it
carries.  The display name of an opcode is left out; its group is read for one
question only, whether it is a push.
-/

namespace Kascov

structure Instruction where
  offset : Nat
  opcode : UInt8
  data : Option Bytes
deriving DecidableEq, Repr

/-- `bytes[start..stop]`. -/
def byteRange (bytes : Bytes) (start stop : Nat) : Bytes := (bytes.take stop).drop start

theorem byteRange_middle (head mid tail : Bytes) :
    byteRange (head ++ (mid ++ tail)) head.length (head.length + mid.length) = mid := by
  rw [byteRange, List.take_length_add_append, List.take_left, List.drop_left]

/-- The length of the data an opcode pushes, and what follows the encoding of
that length.  A length that is cut off is no length. -/
def dataLength (opcode : UInt8) (rest : Bytes) : Option (Nat × Bytes) :=
  if 0x01 ≤ opcode ∧ opcode ≤ 0x4b then some (opcode.toNat, rest)
  else if opcode = 0x4c then
    match rest with
    | n :: rest => some (n.toNat, rest)
    | [] => none
  else if opcode = 0x4d then
    match rest with
    | a :: b :: rest => some (a.toNat + 2 ^ 8 * b.toNat, rest)
    | _ => none
  else if opcode = 0x4e then
    match rest with
    | a :: b :: c :: d :: rest =>
        some (a.toNat + 2 ^ 8 * b.toNat + 2 ^ 16 * c.toNat + 2 ^ 24 * d.toNat, rest)
    | _ => none
  else none

/-- The loop of `disassemble`, from an offset. -/
def disassembleFrom : Nat → Nat → Bytes → List Instruction × Bool
  | 0, _, _ => ([], false)
  | _ + 1, _, [] => ([], false)
  | fuel + 1, offset, opcode :: rest =>
      match dataLength opcode rest with
      | none =>
          let tail := disassembleFrom fuel (offset + 1) rest
          (⟨offset, opcode, none⟩ :: tail.1, tail.2)
      | some (len, data) =>
          if data.length < len then ([⟨offset, opcode, none⟩], true)
          else
            let next := offset + 1 + (rest.length - data.length) + len
            let tail := disassembleFrom fuel next (data.drop len)
            (⟨offset, opcode, some (data.take len)⟩ :: tail.1, tail.2)

/-- `disassemble`: the instructions, and whether the last push ran past the end.
Every turn of the loop reads a byte, so the length of the script is fuel
enough. -/
def disassemble (script : Bytes) : List Instruction × Bool :=
  disassembleFrom script.length 0 script

theorem dataLength_le {opcode : UInt8} {rest data : Bytes} {len : Nat}
    (h : dataLength opcode rest = some (len, data)) : data.length ≤ rest.length := by
  unfold dataLength at h
  split at h
  · obtain ⟨-, rfl⟩ := Prod.mk.inj (Option.some.inj h)
    exact le_rfl
  · split at h
    · split at h
      · obtain ⟨-, rfl⟩ := Prod.mk.inj (Option.some.inj h)
        exact Nat.le_succ _
      · cases h
    · split at h
      · split at h
        · obtain ⟨-, rfl⟩ := Prod.mk.inj (Option.some.inj h)
          simp only [List.length_cons]
          omega
        · cases h
      · split at h
        · split at h
          · obtain ⟨-, rfl⟩ := Prod.mk.inj (Option.some.inj h)
            simp only [List.length_cons]
            omega
          · cases h
        · cases h

/-- One turn of the loop, at an opcode that is no push of data. -/
theorem disassembleFrom_op {fuel offset : Nat} {opcode : UInt8} {rest : Bytes}
    (h : dataLength opcode rest = none) :
    disassembleFrom (fuel + 1) offset (opcode :: rest) =
      (⟨offset, opcode, none⟩ :: (disassembleFrom fuel (offset + 1) rest).1,
        (disassembleFrom fuel (offset + 1) rest).2) := by
  rw [disassembleFrom, h]

/-- One turn of the loop, at a push that carries its length in the opcode. -/
theorem disassembleFrom_push {fuel offset : Nat} {opcode : UInt8} {value rest : Bytes}
    (hop : 0x01 ≤ opcode ∧ opcode ≤ 0x4b) (hlen : value.length = opcode.toNat) :
    disassembleFrom (fuel + 1) offset (opcode :: (value ++ rest)) =
      (⟨offset, opcode, some value⟩ ::
          (disassembleFrom fuel (offset + 1 + value.length) rest).1,
        (disassembleFrom fuel (offset + 1 + value.length) rest).2) := by
  have hdata : dataLength opcode (value ++ rest) = some (value.length, value ++ rest) := by
    unfold dataLength
    rw [if_pos hop, hlen]
  simp only [disassembleFrom, hdata, Nat.sub_self, Nat.add_zero, List.take_left, List.drop_left]
  rw [if_neg (by rw [List.length_append]; omega)]

/-- A script that is one long push. -/
theorem disassemble_pushData2 {a b : UInt8} {data : Bytes}
    (h : data.length = a.toNat + 2 ^ 8 * b.toNat) :
    disassemble (0x4d :: a :: b :: data) = ([⟨0, 0x4d, some data⟩], false) := by
  have hdata : dataLength 0x4d (a :: b :: data) = some (data.length, data) := by
    rw [h]
    rfl
  unfold disassemble
  simp only [List.length_cons, disassembleFrom, hdata, lt_irrefl, if_false, List.take_length,
    List.drop_length]

end Kascov
