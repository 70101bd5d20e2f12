import Kascov.Decode.Disasm

/-!
# Opcode names

`opcode_info` of `disasm.rs`: each opcode has a display name and a group.  An
instruction is disassembled with both.
-/

namespace Kascov

inductive OpGroup where
  | push
  | standard
  | introspection
  | covenant
  | zk
  | unknown
deriving DecidableEq, Repr

/-- Consecutive opcodes of one group. -/
structure OpcodeRun where
  start : UInt8
  group : OpGroup
  names : List String

/-- The name and the group of an opcode, from a table of runs. -/
def lookupOpcode (runs : List OpcodeRun) (opcode : UInt8) : Option (String × OpGroup) :=
  runs.findSome? fun run ↦
    if run.start ≤ opcode then
      run.names[opcode.toNat - run.start.toNat]?.map fun name ↦ (name, run.group)
    else none

/-- The named opcodes of `opcode_info`, less the direct pushes. -/
def opcodeRuns : List OpcodeRun :=
  [⟨0x00, .push, ["OpFalse"]⟩,
   ⟨0x4c, .push, ["OpPushData1", "OpPushData2", "OpPushData4", "Op1Negate"]⟩,
   ⟨0x50, .standard, ["OpReserved"]⟩,
   ⟨0x51, .push, ["OpTrue", "Op2", "Op3", "Op4", "Op5", "Op6", "Op7", "Op8", "Op9", "Op10",
     "Op11", "Op12", "Op13", "Op14", "Op15", "Op16"]⟩,
   ⟨0x61, .standard, ["OpNop", "OpVer", "OpIf", "OpNotIf", "OpVerIf", "OpVerNotIf", "OpElse",
     "OpEndIf", "OpVerify", "OpReturn", "OpToAltStack", "OpFromAltStack", "Op2Drop", "Op2Dup",
     "Op3Dup", "Op2Over", "Op2Rot", "Op2Swap", "OpIfDup", "OpDepth", "OpDrop", "OpDup", "OpNip",
     "OpOver", "OpPick", "OpRoll", "OpRot", "OpSwap", "OpTuck", "OpCat", "OpSubstr", "OpLeft",
     "OpRight", "OpSize", "OpInvert", "OpAnd", "OpOr", "OpXor", "OpEqual", "OpEqualVerify",
     "OpReserved1", "OpReserved2", "Op1Add", "Op1Sub", "Op2Mul", "Op2Div", "OpNegate", "OpAbs",
     "OpNot", "Op0NotEqual", "OpAdd", "OpSub", "OpMul", "OpDiv", "OpMod", "OpLShift",
     "OpRShift", "OpBoolAnd", "OpBoolOr", "OpNumEqual", "OpNumEqualVerify", "OpNumNotEqual",
     "OpLessThan", "OpGreaterThan", "OpLessThanOrEqual", "OpGreaterThanOrEqual", "OpMin",
     "OpMax", "OpWithin"]⟩,
   ⟨0xa6, .zk, ["OpZkPrecompile"]⟩,
   ⟨0xa7, .standard, ["OpBlake2bWithKey", "OpSHA256", "OpCheckMultiSigECDSA", "OpBlake2b",
     "OpCheckSigECDSA", "OpCheckSig", "OpCheckSigVerify", "OpCheckMultiSig",
     "OpCheckMultiSigVerify", "OpCheckLockTimeVerify", "OpCheckSequenceVerify"]⟩,
   ⟨0xb2, .introspection, ["OpTxVersion", "OpTxInputCount", "OpTxOutputCount", "OpTxLockTime",
     "OpTxSubnetId", "OpTxGas", "OpTxPayloadSubstr", "OpTxInputIndex", "OpOutpointTxId",
     "OpOutpointIndex", "OpTxInputScriptSigSubstr", "OpTxInputSeq", "OpTxInputAmount",
     "OpTxInputSpk", "OpTxInputDaaScore", "OpTxInputIsCoinbase", "OpTxOutputAmount",
     "OpTxOutputSpk", "OpTxPayloadLen", "OpTxInputSpkLen", "OpTxInputSpkSubstr",
     "OpTxOutputSpkLen", "OpTxOutputSpkSubstr", "OpTxInputScriptSigLen"]⟩,
   ⟨0xcb, .covenant, ["OpAuthOutputCount", "OpAuthOutputIdx"]⟩,
   ⟨0xcd, .introspection, ["OpNum2Bin", "OpBin2Num"]⟩,
   ⟨0xcf, .covenant, ["OpInputCovenantId", "OpCovInputCount", "OpCovInputIdx",
     "OpCovOutputCount", "OpCovOutputIdx", "OpChainblockSeqCommit", "OpOutputCovenantId",
     "OpOutputAuthorizingInput"]⟩,
   ⟨0xd7, .standard, ["OpCheckSigFromStack", "OpCheckSigFromStackECDSA", "OpBlake3",
     "OpBlake3WithKey"]⟩,
   ⟨0xfa, .standard, ["OpSmallInteger", "OpPubKeys"]⟩,
   ⟨0xfd, .standard, ["OpPubKeyHash", "OpPubKey", "OpInvalidOpCode"]⟩]

/-- `opcode_info`. -/
def opcodeInfo (opcode : UInt8) : String × OpGroup :=
  if 0x01 ≤ opcode ∧ opcode ≤ 0x4b then ("OpData", .push)
  else (lookupOpcode opcodeRuns opcode).getD ("OpUnknown", .unknown)

/-- An instruction as it is listed, with its name and group. -/
structure ListedInstruction where
  offset : Nat
  opcode : UInt8
  name : String
  group : OpGroup
  data : Option Bytes
deriving DecidableEq, Repr

def Instruction.listed (inst : Instruction) : ListedInstruction :=
  { offset := inst.offset
    opcode := inst.opcode
    name := (opcodeInfo inst.opcode).1
    group := (opcodeInfo inst.opcode).2
    data := inst.data }

/-- `disassemble`, with the names and groups. -/
def listing (script : Bytes) : List ListedInstruction × Bool :=
  let (instructions, truncated) := disassemble script
  (instructions.map Instruction.listed, truncated)

end Kascov
