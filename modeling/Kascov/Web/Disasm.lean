import Kascov.Decode.Spans

/-!
# The browser's disassembler

`disasm.js`: the port that the pages list scripts with.  It walks the bytes by index
and reads lengths with 32-bit operators.
-/

namespace Kascov

/-- `OPS`. -/
def portOps : List OpcodeRun :=
  [⟨0x00, .push, ["OpFalse"]⟩,
   ⟨0x4c, .push, ["OpPushData1", "OpPushData2", "OpPushData4", "Op1Negate"]⟩,
   ⟨0x50, .standard, ["OpReserved"]⟩,
   ⟨0x51, .push, ["OpTrue"]⟩,
   ⟨0x61, .standard, ["OpNop", "OpVer", "OpIf", "OpNotIf", "OpVerIf", "OpVerNotIf", "OpElse",
     "OpEndIf", "OpVerify", "OpReturn", "OpToAltStack", "OpFromAltStack", "Op2Drop", "Op2Dup",
     "Op3Dup", "Op2Over", "Op2Rot", "Op2Swap", "OpIfDup", "OpDepth", "OpDrop", "OpDup", "OpNip",
     "OpOver", "OpPick", "OpRoll", "OpRot", "OpSwap", "OpTuck", "OpCat", "OpSubstr", "OpLeft",
     "OpRight", "OpSize", "OpInvert", "OpAnd", "OpOr", "OpXor", "OpEqual", "OpEqualVerify",
     "OpReserved1", "OpReserved2", "Op1Add", "Op1Sub", "Op2Mul", "Op2Div", "OpNegate", "OpAbs",
     "OpNot", "Op0NotEqual", "OpAdd", "OpSub", "OpMul", "OpDiv", "OpMod", "OpLShift",
     "OpRShift", "OpBoolAnd", "OpBoolOr", "OpNumEqual", "OpNumEqualVerify", "OpNumNotEqual",
     "OpLessThan", "OpGreaterThan", "OpLessThanOrEqual", "OpGreaterThanOrEqual", "OpMin",
     "OpMax", "OpWithin"]⟩,
   ⟨0xa6, .zk, ["OpZkPrecompile"]⟩,
   ⟨0xa7, .standard, ["OpBlake2bWithKey", "OpSHA256", "OpCheckMultiSigECDSA", "OpBlake2b",
     "OpCheckSigECDSA", "OpCheckSig", "OpCheckSigVerify", "OpCheckMultiSig",
     "OpCheckMultiSigVerify", "OpCheckLockTimeVerify", "OpCheckSequenceVerify"]⟩,
   ⟨0xb2, .introspection, ["OpTxVersion", "OpTxInputCount", "OpTxOutputCount", "OpTxLockTime",
     "OpTxSubnetId", "OpTxGas", "OpTxPayloadSubstr", "OpTxInputIndex", "OpOutpointTxId",
     "OpOutpointIndex", "OpTxInputScriptSigSubstr", "OpTxInputSeq", "OpTxInputAmount",
     "OpTxInputSpk", "OpTxInputDaaScore", "OpTxInputIsCoinbase", "OpTxOutputAmount",
     "OpTxOutputSpk", "OpTxPayloadLen", "OpTxInputSpkLen", "OpTxInputSpkSubstr",
     "OpTxOutputSpkLen", "OpTxOutputSpkSubstr", "OpTxInputScriptSigLen"]⟩,
   ⟨0xcb, .covenant, ["OpAuthOutputCount", "OpAuthOutputIdx"]⟩,
   ⟨0xcd, .introspection, ["OpNum2Bin", "OpBin2Num"]⟩,
   ⟨0xcf, .covenant, ["OpInputCovenantId", "OpCovInputCount", "OpCovInputIdx",
     "OpCovOutputCount", "OpCovOutputIdx", "OpChainblockSeqCommit", "OpOutputCovenantId",
     "OpOutputAuthorizingInput"]⟩,
   ⟨0xd7, .standard, ["OpCheckSigFromStack", "OpCheckSigFromStackECDSA", "OpBlake3",
     "OpBlake3WithKey"]⟩,
   ⟨0xfa, .standard, ["OpSmallInteger", "OpPubKeys"]⟩,
   ⟨0xfd, .standard, ["OpPubKeyHash", "OpPubKey", "OpInvalidOpCode"]⟩]

/-- `opcodeInfo`. -/
def portOpcodeInfo (opcode : UInt8) : String × OpGroup :=
  if 0x01 ≤ opcode ∧ opcode ≤ 0x4b then ("OpData", .push)
  else if 0x52 ≤ opcode ∧ opcode ≤ 0x60 then ("Op" ++ toString (opcode.toNat - 0x50), .push)
  else (lookupOpcode portOps opcode).getD ("OpUnknown", .unknown)

/-- A byte as an operand of a bitwise operator. -/
def int32 (b : UInt8) : BitVec 32 := b.toBitVec.setWidth 32

/-- `bytes[i] | (bytes[i + 1] << 8)`. -/
def portLe16 (a b : UInt8) : Nat := (int32 a ||| int32 b <<< 8).toNat

/-- `(bytes[i] | (bytes[i + 1] << 8) | …) >>> 0`. -/
def portLe32 (a b c d : UInt8) : Nat :=
  (int32 a ||| int32 b <<< 8 ||| int32 c <<< 16 ||| int32 d <<< 24).toNat

/-- `dataLen`, and the index after it is read. -/
def portDataLength (bytes : Bytes) (opcode : UInt8) (i : Nat) : Option Nat × Nat :=
  if 0x01 ≤ opcode ∧ opcode ≤ 0x4b then (some opcode.toNat, i)
  else if opcode = 0x4c then
    match bytes[i]? with
    | some a => (some a.toNat, i + 1)
    | none => (none, i)
  else if opcode = 0x4d then
    match bytes[i]?, bytes[i + 1]? with
    | some a, some b => (some (portLe16 a b), i + 2)
    | _, _ => (none, i)
  else if opcode = 0x4e then
    match bytes[i]?, bytes[i + 1]?, bytes[i + 2]?, bytes[i + 3]? with
    | some a, some b, some c, some d => (some (portLe32 a b c d), i + 4)
    | _, _, _, _ => (none, i)
  else (none, i)

/-- The loop, from an index, before which `out` was listed. -/
def portFrom (bytes : Bytes) : Nat → Nat → List ListedInstruction →
    List ListedInstruction × Bool
  | 0, _, out => (out, false)
  | fuel + 1, offset, out =>
      match bytes[offset]? with
      | none => (out, false)
      | some opcode =>
          let (name, group) := portOpcodeInfo opcode
          match portDataLength bytes opcode (offset + 1) with
          | (none, i) => portFrom bytes fuel i (out ++ [⟨offset, opcode, name, group, none⟩])
          | (some dataLen, i) =>
              if bytes.length < i + dataLen then
                (out ++ [⟨offset, opcode, name, group, none⟩], true)
              else
                portFrom bytes fuel (i + dataLen)
                  (out ++ [⟨offset, opcode, name, group,
                    some (byteRange bytes i (i + dataLen))⟩])

/-- The port's `disassemble`. -/
def portDisassemble (bytes : Bytes) : List ListedInstruction × Bool :=
  portFrom bytes bytes.length 0 []

/-! ## The tables -/

theorem portOpcodeInfo_ofNat : ∀ n : Fin 256,
    portOpcodeInfo (UInt8.ofNat n) = opcodeInfo (UInt8.ofNat n) := by
  decide +kernel

/-- The two tables name every opcode alike. -/
theorem portOpcodeInfo_eq (opcode : UInt8) : portOpcodeInfo opcode = opcodeInfo opcode := by
  have h := portOpcodeInfo_ofNat ⟨opcode.toNat, opcode.toNat_lt⟩
  rwa [UInt8.ofNat_toNat] at h

/-! ## The lengths -/

theorem int32_shift (b : UInt8) {n : Nat} (h : n ≤ 24) :
    (int32 b <<< n).toNat = b.toNat <<< n := by
  have hlt : b.toNat <<< n < 2 ^ 32 := by
    rw [Nat.shiftLeft_eq]
    calc b.toNat * 2 ^ n < 2 ^ 8 * 2 ^ n :=
          Nat.mul_lt_mul_of_pos_right b.toNat_lt (Nat.two_pow_pos n)
      _ = 2 ^ (8 + n) := (Nat.pow_add 2 8 n).symm
      _ ≤ 2 ^ 32 := Nat.pow_le_pow_right (by decide) (by omega)
  rw [BitVec.toNat_shiftLeft, int32, BitVec.toNat_setWidth, UInt8.toNat_toBitVec,
    Nat.mod_eq_of_lt (lt_trans b.toNat_lt (by decide)), Nat.mod_eq_of_lt hlt]

theorem int32_toNat (b : UInt8) : (int32 b).toNat = b.toNat := by
  have h := int32_shift b (Nat.zero_le 24)
  rwa [BitVec.shiftLeft_zero, Nat.shiftLeft_zero] at h

theorem portLe16_eq (a b : UInt8) : portLe16 a b = a.toNat + 2 ^ 8 * b.toNat := by
  rw [portLe16, BitVec.toNat_or, int32_toNat, int32_shift b (by decide), Nat.lor_comm,
    ← Nat.shiftLeft_add_eq_or_of_lt a.toNat_lt, Nat.shiftLeft_eq]
  omega

theorem portLe32_eq (a b c d : UInt8) : portLe32 a b c d =
    a.toNat + 2 ^ 8 * b.toNat + 2 ^ 16 * c.toNat + 2 ^ 24 * d.toNat := by
  have hab := portLe16_eq a b
  have ha := a.toNat_lt
  have hb := b.toNat_lt
  have hc := c.toNat_lt
  rw [portLe16] at hab
  rw [portLe32, BitVec.toNat_or, BitVec.toNat_or, hab, int32_shift c (by decide),
    int32_shift d (by decide), Nat.lor_comm _ (c.toNat <<< 16),
    ← Nat.shiftLeft_add_eq_or_of_lt (by omega), Nat.lor_comm,
    ← Nat.shiftLeft_add_eq_or_of_lt (by rw [Nat.shiftLeft_eq]; omega), Nat.shiftLeft_eq,
    Nat.shiftLeft_eq]
  omega

/-! ## The loops -/

theorem getElem?_after (pre rest : Bytes) (opcode : UInt8) (k : Nat) :
    (pre ++ opcode :: rest)[pre.length + (1 + k)]? = rest[k]? := by
  rw [List.getElem?_append_right (Nat.le_add_right _ _), Nat.add_sub_cancel_left,
    Nat.add_comm 1 k, List.getElem?_cons_succ]

/-- The two read the same length, and stop at the same place. -/
theorem portDataLength_eq (pre rest : Bytes) (opcode : UInt8) :
    portDataLength (pre ++ opcode :: rest) opcode (pre.length + 1) =
      match dataLength opcode rest with
      | none => (none, pre.length + 1)
      | some (len, data) => (some len, pre.length + 1 + (rest.length - data.length)) := by
  have h0 := getElem?_after pre rest opcode 0
  have h1 := getElem?_after pre rest opcode 1
  have h2 := getElem?_after pre rest opcode 2
  have h3 := getElem?_after pre rest opcode 3
  unfold portDataLength dataLength
  split
  · simp
  · split
    · rw [h0]
      cases rest with
      | nil => rfl
      | cons a rest => simp
    · split
      · rw [h0, h1]
        rcases rest with - | ⟨a, - | ⟨b, rest⟩⟩
        · rfl
        · rfl
        · simp [portLe16_eq]
          omega
      · split
        · rw [h0, h1, h2, h3]
          rcases rest with - | ⟨a, - | ⟨b, - | ⟨c, - | ⟨d, rest⟩⟩⟩⟩
          · rfl
          · rfl
          · rfl
          · rfl
          · simp [portLe32_eq]
            omega
        · rfl

/-- The port's loop does the turns of the decoder's. -/
theorem Reads.portFrom_eq {offset : Nat} {bytes : Bytes} {insts : List Instruction}
    {truncated : Bool} (h : Reads offset bytes insts truncated) {pre : Bytes}
    (hpre : pre.length = offset) (out : List ListedInstruction) :
    ∀ fuel, bytes.length ≤ fuel → portFrom (pre ++ bytes) fuel offset out =
      (out ++ insts.map Instruction.listed, truncated) := by
  induction h generalizing pre out with
  | done offset =>
      subst hpre
      intro fuel _
      cases fuel with
      | zero => simp [portFrom]
      | succ fuel => simp [portFrom]
  | @op offset opcode rest insts truncated hlen tail ih =>
      subst hpre
      intro fuel hfuel
      rw [List.length_cons] at hfuel
      obtain ⟨fuel, rfl⟩ := Nat.exists_eq_succ_of_ne_zero (by omega : fuel ≠ 0)
      have htail := @ih (pre ++ [opcode]) (by rw [List.length_append]; rfl)
        (out ++ [Instruction.listed ⟨pre.length, opcode, none⟩]) fuel (by omega)
      rw [List.append_assoc, List.singleton_append, List.append_assoc] at htail
      have hget : (pre ++ opcode :: rest)[pre.length]? = some opcode := by simp
      rw [portFrom, hget]
      dsimp only
      rw [portDataLength_eq, hlen, portOpcodeInfo_eq]
      exact htail
  | @push offset opcode header data rest insts truncated hlen tail ih =>
      subst hpre
      intro fuel hfuel
      simp only [List.length_cons, List.length_append] at hfuel
      obtain ⟨fuel, rfl⟩ := Nat.exists_eq_succ_of_ne_zero (by omega : fuel ≠ 0)
      have htail := @ih (pre ++ opcode :: (header ++ data)) (by
          simp only [List.length_cons, List.length_append]
          omega)
        (out ++ [Instruction.listed ⟨pre.length, opcode, some data⟩]) fuel (by omega)
      rw [List.append_assoc, List.cons_append, List.append_assoc, List.append_assoc] at htail
      have hget : (pre ++ opcode :: (header ++ (data ++ rest)))[pre.length]? = some opcode := by
        simp
      rw [portFrom, hget]
      dsimp only
      rw [portDataLength_eq, dataLength_eq_some.mpr ⟨header, rfl, hlen⟩, portOpcodeInfo_eq]
      dsimp only
      have hi : pre.length + 1 + ((header ++ (data ++ rest)).length - (data ++ rest).length) =
          pre.length + (1 + header.length) := by
        rw [List.length_append]
        omega
      have hdata : byteRange (pre ++ opcode :: (header ++ (data ++ rest)))
          (pre.length + (1 + header.length))
          (pre.length + (1 + header.length) + data.length) = data := by
        have hall : pre ++ opcode :: (header ++ (data ++ rest)) =
            (pre ++ opcode :: header) ++ (data ++ rest) := by simp
        have hlen : (pre ++ opcode :: header).length = pre.length + (1 + header.length) := by
          rw [List.length_append, List.length_cons]
          omega
        rw [hall, byteRange, ← hlen, List.take_length_add_append, List.drop_left, List.take_left]
      rw [hi, if_neg (by simp only [List.length_cons, List.length_append]; omega), hdata,
        Nat.add_assoc]
      exact htail
  | @cut offset opcode rest data len hlen hcut =>
      subst hpre
      intro fuel hfuel
      rw [List.length_cons] at hfuel
      obtain ⟨fuel, rfl⟩ := Nat.exists_eq_succ_of_ne_zero (by omega : fuel ≠ 0)
      have hget : (pre ++ opcode :: rest)[pre.length]? = some opcode := by simp
      have hle := dataLength_le hlen
      rw [portFrom, hget]
      dsimp only
      rw [portDataLength_eq, hlen, portOpcodeInfo_eq]
      dsimp only
      rw [if_pos (by simp only [List.length_cons, List.length_append]; omega)]
      rfl

theorem portDisassemble_eq (script : Bytes) : portDisassemble script = listing script :=
  (disassemble_reads script).portFrom_eq List.length_nil [] script.length le_rfl

/-- **The listing.**  The disassembler loses no byte and flags a cut-off push exactly,
and the browser lists every script as it does. -/
theorem listing_lossless (script : Bytes) :
    Lossless script (disassemble script).1 (disassemble script).2 ∧
      portDisassemble script = listing script :=
  ⟨disassemble_lossless script, portDisassemble_eq script⟩

end Kascov
