import Kascov.Decode.Disasm
import Kascov.Lib.LittleEndian
import Kascov.Token.State
import Kascov.Web.Hex

/-!
# Cells in the browser

`curve.js`: how the trade page finds the state block of a cell program, reads its four
fields, and writes four others over them.  A call that throws is a call that gives
nothing.
-/

namespace Kascov

open LittleEndian

/-- What a page passes for bytes: an array, or hex text. -/
inductive BytesArg where
  | array (bytes : Bytes)
  | text (hex : Text)
deriving DecidableEq

/-- `toBytes`. -/
def toBytes : BytesArg → Option Bytes
  | .array bytes => some bytes
  | .text hex => hexBytes hex

/-- `readU64LE`. -/
def readU64LE (bytes : Bytes) (off : Nat) : Option Nat := (slice bytes off 8).map value

/-- The eight bytes that `writeU64LE` writes. -/
def u64LE (v : Int) : Option Bytes :=
  if 0 ≤ v ∧ v < 2 ^ 64 then some (fixed 8 v.toNat) else none

/-- `locateCellStateBlock`. -/
def locateCellStateBlock (p : Bytes) : Option Nat :=
  if 46 ≤ p.length ∧ p[0]? = some 0x20 ∧ p[33]? = some 0x01 ∧ p[35]? = some 0x08 ∧
      p[44]? = some 0x01 then
    some 0
  else if 48 ≤ p.length ∧ p[0]? = some 0x6b ∧ p[1]? = some 0x20 ∧ p[34]? = some 0x01 ∧
      p[36]? = some 0x08 ∧ p[45]? = some 0x01 ∧ p[47]? = some 0x6c then
    some 1
  else none

structure CellState where
  owner : Text
  identifierType : UInt8
  amount : Nat
  isMinter : UInt8
deriving DecidableEq

/-- `parseCellState`. -/
def parseCellState (cellProgram : BytesArg) : Option CellState := do
  let p ← toBytes cellProgram
  let start ← locateCellStateBlock p
  let identifierType ← p[start + 34]?
  let amount ← readU64LE p (start + 36)
  let isMinter ← p[start + 45]?
  return { owner := toHex (byteRange p (start + 1) (start + 33)), identifierType, amount, isMinter }

/-- `requireXOnly`. -/
def requireXOnly (hex : BytesArg) : Option Bytes32 := (toBytes hex).bind toBytes32

/-- `n & 0xff`. -/
def lowByte (n : Int) : UInt8 := UInt8.ofNat (n % 2 ^ 8).toNat

/-- `spliceCellState`. -/
def spliceCellState (cellBaseProgram owner : BytesArg) (identifierType amount isMinter : Int) :
    Option Text := do
  let base ← toBytes cellBaseProgram
  let start ← locateCellStateBlock base
  let owner ← requireXOnly owner
  let out := overwrite base (start + 1) owner.val
  let out := overwrite out (start + 34) [lowByte identifierType]
  let amount ← u64LE amount
  let out := overwrite out (start + 36) amount
  return toHex (overwrite out (start + 45) [lowByte isMinter])

/-! ## The port against the decoder -/

/-- The port finds the block that the decoder finds. -/
theorem locateCellStateBlock_eq (p : Bytes) :
    locateCellStateBlock p = (locateStateBlock p).map (·.start) := by
  unfold locateCellStateBlock locateStateBlock
  split
  · rename_i hbare
    rw [if_neg]
    · rfl
    · rintro ⟨-, hguard, -⟩
      cases hguard.symm.trans hbare.2.1
  · split
    · rfl
    · rfl

/-- The port reads the fields of a framed program. -/
theorem parseCellState_frame {arg : BytesArg} {guarded : Bool} {owner : Bytes32} {t : UInt8}
    {amount : Bytes8} {m : UInt8} {rest : Bytes}
    (harg : toBytes arg = some (frame guarded (blockBytes owner t amount m) rest)) :
    parseCellState arg = some ⟨toHex owner.val, t, value amount.val, m⟩ := by
  have howner := slice_middle ((opening guarded).length + 1)
    (frame_owner guarded owner t amount m rest) (by simp)
  have htype := getElem_middle (i := (opening guarded).length + 34)
    (frame_type guarded owner t amount m rest) (by simp [owner.2])
  have hamount := slice_middle ((opening guarded).length + 36)
    (frame_amount guarded owner t amount m rest) (by simp [owner.2])
  have hminter := getElem_middle (i := (opening guarded).length + 45)
    (frame_minter guarded owner t amount m rest) (by simp [owner.2, amount.2])
  rw [owner.2] at howner
  rw [amount.2] at hamount
  have hrange : byteRange (frame guarded (blockBytes owner t amount m) rest)
      ((opening guarded).length + 1) ((opening guarded).length + 33) = owner.val := by
    unfold slice at howner
    split at howner
    · rw [← Option.some.inj howner, byteRange, List.drop_take]
      congr 1
      omega
    · cases howner
  simp only [parseCellState, harg, locateCellStateBlock_eq, locate_frame, Option.map_some,
    htype, readU64LE, hamount, hminter, hrange, Option.bind_eq_bind, Option.bind_some]
  rfl

theorem parseCellState_eq_none {arg : BytesArg} {p : Bytes} (harg : toBytes arg = some p)
    (h : locateStateBlock p = none) : parseCellState arg = none := by
  simp only [parseCellState, harg, locateCellStateBlock_eq, h, Option.map_none,
    Option.bind_eq_bind, Option.bind_some, Option.bind_none]

/-- The port splices what the decoder splices. -/
theorem spliceCellState_eq {arg ownerArg : BytesArg} {p : Bytes} {owner : Bytes32} {amount : Nat}
    (t m : Int) (harg : toBytes arg = some p) (howner : toBytes ownerArg = some owner.val)
    (hamount : amount < 2 ^ 64) :
    spliceCellState arg ownerArg t amount m =
      (spliceTokenState p owner (lowByte t) ⟨fixed 8 amount, length_fixed 8 amount⟩
        (lowByte m)).map toHex := by
  have hkey : requireXOnly ownerArg = some owner := by
    rw [requireXOnly, howner, Option.bind_some, toBytes32, dif_pos owner.2]
  have hu64 : u64LE amount = some (fixed 8 amount) := by
    rw [u64LE, if_pos ⟨Int.natCast_nonneg _, by exact_mod_cast hamount⟩, Int.toNat_natCast]
  cases hloc : locateStateBlock p with
  | none =>
      simp only [spliceCellState, spliceTokenState, harg, hloc, locateCellStateBlock_eq,
        Option.map_none, Option.bind_eq_bind, Option.bind_some, Option.bind_none]
  | some b =>
      simp only [spliceCellState, spliceTokenState, harg, hloc, locateCellStateBlock_eq, hkey,
        hu64, Option.map_some, Option.bind_eq_bind, Option.bind_some]
      rfl

end Kascov
