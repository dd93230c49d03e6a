import Mathlib

/-!
# Script vocabulary: opcodes, limits, verification flags and error codes

The constants of `script/script.h`, `script/script_error.h` and the flag
enumeration of `script/interpreter.h`. An opcode is the byte the interpreter
reads from the script (`opcodetype` is an enumeration, but the interpreter
casts every byte to it and compares opcodes as numbers), so opcodes are
`UInt8` constants here.

`OpcodeCase` names the case groups of the big `switch` of
`ScriptMachine::Step`: several opcodes share one group and are then told
apart by an inner `switch`, exactly as in the source. `decodeOpcodeCase`
maps a byte to its group, the `default:` label becoming `badOpcode`.
-/

namespace Membercoin

/-! ## Limits (`script/script.h`) -/

/-- Maximum number of bytes pushable to the stack. -/
def maxScriptElementSize : Nat := 520

/-- Maximum number of non-push operations per script. -/
def maxOpsPerScript : Nat := 201

/-- Maximum number of public keys per multisig. -/
def maxPubkeysPerMultisig : Nat := 20

/-- Maximum script length in bytes. -/
def maxScriptSize : Nat := 10000

/-- Maximum number of values on the interpreter stacks together. -/
def maxStackSize : Nat := 1000

/-! ## Opcodes -/

def op0 : UInt8 := 0x00
def opPushData1 : UInt8 := 0x4c
def opPushData2 : UInt8 := 0x4d
def opPushData4 : UInt8 := 0x4e
def op1Negate : UInt8 := 0x4f
def op1 : UInt8 := 0x51
def op16 : UInt8 := 0x60
def opNop : UInt8 := 0x61
def opIf : UInt8 := 0x63
def opNotIf : UInt8 := 0x64
def opElse : UInt8 := 0x67
def opEndIf : UInt8 := 0x68
def opVerify : UInt8 := 0x69
def opReturn : UInt8 := 0x6a
def opToAltStack : UInt8 := 0x6b
def opFromAltStack : UInt8 := 0x6c
def op2Drop : UInt8 := 0x6d
def op2Dup : UInt8 := 0x6e
def op3Dup : UInt8 := 0x6f
def op2Over : UInt8 := 0x70
def op2Rot : UInt8 := 0x71
def op2Swap : UInt8 := 0x72
def opIfDup : UInt8 := 0x73
def opDepth : UInt8 := 0x74
def opDrop : UInt8 := 0x75
def opDup : UInt8 := 0x76
def opNip : UInt8 := 0x77
def opOver : UInt8 := 0x78
def opPick : UInt8 := 0x79
def opRoll : UInt8 := 0x7a
def opRot : UInt8 := 0x7b
def opSwap : UInt8 := 0x7c
def opTuck : UInt8 := 0x7d
def opCat : UInt8 := 0x7e
def opSplit : UInt8 := 0x7f
def opNum2Bin : UInt8 := 0x80
def opBin2Num : UInt8 := 0x81
def opSize : UInt8 := 0x82
def opInvert : UInt8 := 0x83
def opAnd : UInt8 := 0x84
def opOr : UInt8 := 0x85
def opXor : UInt8 := 0x86
def opEqual : UInt8 := 0x87
def opEqualVerify : UInt8 := 0x88
def op1Add : UInt8 := 0x8b
def op1Sub : UInt8 := 0x8c
def op2Mul : UInt8 := 0x8d
def op2Div : UInt8 := 0x8e
def opNegate : UInt8 := 0x8f
def opAbs : UInt8 := 0x90
def opNot : UInt8 := 0x91
def op0NotEqual : UInt8 := 0x92
def opAdd : UInt8 := 0x93
def opSub : UInt8 := 0x94
def opMul : UInt8 := 0x95
def opDiv : UInt8 := 0x96
def opMod : UInt8 := 0x97
def opLShift : UInt8 := 0x98
def opRShift : UInt8 := 0x99
def opBoolAnd : UInt8 := 0x9a
def opBoolOr : UInt8 := 0x9b
def opNumEqual : UInt8 := 0x9c
def opNumEqualVerify : UInt8 := 0x9d
def opNumNotEqual : UInt8 := 0x9e
def opLessThan : UInt8 := 0x9f
def opGreaterThan : UInt8 := 0xa0
def opLessThanOrEqual : UInt8 := 0xa1
def opGreaterThanOrEqual : UInt8 := 0xa2
def opMin : UInt8 := 0xa3
def opMax : UInt8 := 0xa4
def opWithin : UInt8 := 0xa5
def opRipemd160 : UInt8 := 0xa6
def opSha1 : UInt8 := 0xa7
def opSha256 : UInt8 := 0xa8
def opHash160 : UInt8 := 0xa9
def opHash256 : UInt8 := 0xaa
def opCodeSeparator : UInt8 := 0xab
def opCheckSig : UInt8 := 0xac
def opCheckSigVerify : UInt8 := 0xad
def opCheckMultiSig : UInt8 := 0xae
def opCheckMultiSigVerify : UInt8 := 0xaf
def opNop1 : UInt8 := 0xb0
def opCheckLockTimeVerify : UInt8 := 0xb1
def opCheckSequenceVerify : UInt8 := 0xb2
def opNop4 : UInt8 := 0xb3
def opNop10 : UInt8 := 0xb9
def opCheckDataSig : UInt8 := 0xba
def opCheckDataSigVerify : UInt8 := 0xbb
def opReverseBytes : UInt8 := 0xbc

/-- The opcodes rejected wherever they appear (`IsOpcodeDisabled`). -/
def isOpcodeDisabled (opcode : UInt8) (_flags : UInt32) : Bool :=
  opcode = op2Mul || opcode = op2Div || opcode = opInvert || opcode = opMul ||
    opcode = opLShift || opcode = opRShift

/-! ## Verification flags (`script/interpreter.h`) -/

def scriptVerifyStrictEnc : UInt32 := (1 : UInt32) <<< 1
def scriptVerifyDerSig : UInt32 := (1 : UInt32) <<< 2
def scriptVerifyLowS : UInt32 := (1 : UInt32) <<< 3
def scriptVerifyMinimalData : UInt32 := (1 : UInt32) <<< 6
def scriptVerifyDiscourageUpgradableNops : UInt32 := (1 : UInt32) <<< 7
def scriptVerifyCheckLockTimeVerify : UInt32 := (1 : UInt32) <<< 9
def scriptVerifyCheckSequenceVerify : UInt32 := (1 : UInt32) <<< 10
def scriptVerifyNullFail : UInt32 := (1 : UInt32) <<< 14
def scriptVerifyCompressedPubkeyType : UInt32 := (1 : UInt32) <<< 15
def scriptEnableSighashForkId : UInt32 := (1 : UInt32) <<< 16
def scriptEnableSchnorrMultisig : UInt32 := (1 : UInt32) <<< 21
def scriptEnableOpReverseBytes : UInt32 := (1 : UInt32) <<< 23

/-- Whether a flag word has any bit of a flag set (`flags & FLAG`). -/
def hasFlag (flags flag : UInt32) : Bool := flags &&& flag != 0

/-- Signature hash type bits. -/
def sighashAll : UInt32 := 1
def sighashNone : UInt32 := 2
def sighashSingle : UInt32 := 3
def sighashForkId : UInt32 := 0x40
def sighashAnyoneCanPay : UInt32 := 0x80

/-- Bit 31 of an input sequence number disables its relative lock time. -/
def sequenceLocktimeDisableFlag : Int := 2 ^ 31

/-! ## Errors (`script/script_error.h`) -/

/-- The error codes that `ScriptMachine::Step` and its helpers can set. -/
inductive ScriptError where
  | ok | unknownError | evalFalse | opReturn
  | scriptSize | pushSize | opCount | stackSize | sigCount | pubkeyCount
  | invalidOperandSize | invalidNumberRange | impossibleEncoding
  | invalidSplitRange | invalidBitCount
  | verify | equalVerify | checkMultiSigVerify | checkSigVerify
  | checkDataSigVerify | numEqualVerify
  | badOpcode | disabledOpcode | invalidStackOperation
  | invalidAltstackOperation | unbalancedConditional
  | divByZero | modByZero
  | invalidBitfieldSize | invalidBitRange
  | negativeLocktime | unsatisfiedLocktime
  | sigHashtype | sigDer | minimalData | sigPushOnly | sigHighS
  | pubkeyType | cleanStack | sigNullFail
  | sigBadLength | sigNonSchnorr | mustUseForkId
  | discourageUpgradableNops
  | noncompressedPubkey | numberOverflow | numberBadEncoding
  | sigchecksLimitExceeded
  deriving DecidableEq, Repr

/-- How a call into the interpreter can end without a result: it sets an
error code and returns `false` (`set_error`, or a `scriptnum_error` or other
exception caught at the bottom of `Step`), or it aborts the process. An abort
is a failed `assert`, arithmetic that the C++ standard leaves undefined
(signed overflow, division by zero), or an unchecked read past the end of a
vector; the model treats all three as fatal. -/
inductive Fault where
  | scriptError (e : ScriptError)
  | assertFailure
  | undefinedBehavior
  | outOfBoundsRead
  deriving DecidableEq, Repr

/-- `if (cond) return set_error(serror, e);`, the way every check of the
interpreter fails. -/
def failIf (cond : Prop) [Decidable cond] (e : ScriptError) : Except Fault Unit :=
  if cond then throw (.scriptError e) else pure ()

theorem failIf_eq_ok {cond : Prop} [Decidable cond] {e : ScriptError} {u : Unit} :
    failIf cond e = .ok u ↔ ¬cond := by
  unfold failIf
  split_ifs with h
  · simp [h]
  · simp [h, pure, Except.pure]

theorem failIf_of_not {cond : Prop} [Decidable cond] {e : ScriptError} (h : ¬cond) :
    failIf cond e = pure () :=
  if_neg h

theorem failIf_eq_error {cond : Prop} [Decidable cond] {e : ScriptError} {f : Fault} :
    failIf cond e = .error f ↔ cond ∧ f = .scriptError e := by
  unfold failIf
  split_ifs with h
  · simp [h, throw, throwThe, MonadExceptOf.throw, eq_comm]
  · simp [h, pure, Except.pure]

/-! ## The case groups of the interpreter's switch -/

/-- The inner `switch` of the `OP_AND`/`OP_OR`/`OP_XOR` group. -/
inductive BitwiseOp where
  | and | or | xor
  deriving DecidableEq, Repr

/-- The inner `switch` of the `OP_1ADD` ... `OP_0NOTEQUAL` group. -/
inductive UnaryNumOp where
  | add1 | sub1 | negate | abs | not | zeroNotEqual
  deriving DecidableEq, Repr

/-- The inner `switch` of the `OP_ADD` ... `OP_MAX` group. -/
inductive BinaryNumOp where
  | add | sub | div | mod | boolAnd | boolOr | numEqual | numEqualVerify
  | numNotEqual | lessThan | greaterThan | lessThanOrEqual
  | greaterThanOrEqual | min | max
  deriving DecidableEq, Repr

/-- The stack opcodes that only pop, copy and reorder elements. -/
inductive ShuffleOp where
  | drop2 | dup2 | dup3 | over2 | rot2 | swap2 | ifDup | drop | dup | nip | over | rot | swap
  | tuck
  deriving DecidableEq, Repr

/-- The inner `if` chain of the hash group. -/
inductive HashOp where
  | ripemd160 | sha1 | sha256 | hash160 | hash256
  deriving DecidableEq, Repr

/-- One case group of the switch in `ScriptMachine::Step`. A `Bool`
parameter records which of two opcodes sharing a group was read (`OP_NOTIF`,
`OP_ROLL`, the `VERIFY` variants). -/
inductive OpcodeCase where
  | pushNumber (opcode : UInt8)
  | nop
  | checkLockTimeVerify
  | checkSequenceVerify
  | upgradableNop
  | ifNotIf (notIf : Bool)
  | elseCase
  | endIf
  | verify
  | opReturn
  | toAltStack | fromAltStack
  | shuffle (op : ShuffleOp)
  | depth
  | pickRoll (roll : Bool)
  | size
  | bitwise (op : BitwiseOp)
  | equal (verify : Bool)
  | unaryNum (op : UnaryNumOp)
  | binaryNum (op : BinaryNumOp)
  | within
  | hash (op : HashOp)
  | codeSeparator
  | checkSig (verify : Bool)
  | checkMultiSig (verify : Bool)
  | checkDataSig (verify : Bool)
  | cat | split | reverseBytes | num2Bin | bin2Num
  | badOpcode
  deriving DecidableEq, Repr

/-- The case label of the switch that an opcode reaches. -/
def decodeOpcodeCase (op : UInt8) : OpcodeCase :=
  if op = op1Negate ∨ (op1 ≤ op ∧ op ≤ op16) then
    .pushNumber op
  else if op = opNop then .nop
  else if op = opCheckLockTimeVerify then .checkLockTimeVerify
  else if op = opCheckSequenceVerify then .checkSequenceVerify
  else if op = opNop1 ∨ (opNop4 ≤ op ∧ op ≤ opNop10) then .upgradableNop
  else if op = opIf then .ifNotIf false
  else if op = opNotIf then .ifNotIf true
  else if op = opElse then .elseCase
  else if op = opEndIf then .endIf
  else if op = opVerify then .verify
  else if op = opReturn then .opReturn
  else if op = opToAltStack then .toAltStack
  else if op = opFromAltStack then .fromAltStack
  else if op = op2Drop then .shuffle .drop2
  else if op = op2Dup then .shuffle .dup2
  else if op = op3Dup then .shuffle .dup3
  else if op = op2Over then .shuffle .over2
  else if op = op2Rot then .shuffle .rot2
  else if op = op2Swap then .shuffle .swap2
  else if op = opIfDup then .shuffle .ifDup
  else if op = opDepth then .depth
  else if op = opDrop then .shuffle .drop
  else if op = opDup then .shuffle .dup
  else if op = opNip then .shuffle .nip
  else if op = opOver then .shuffle .over
  else if op = opPick then .pickRoll false
  else if op = opRoll then .pickRoll true
  else if op = opRot then .shuffle .rot
  else if op = opSwap then .shuffle .swap
  else if op = opTuck then .shuffle .tuck
  else if op = opSize then .size
  else if op = opAnd then .bitwise .and
  else if op = opOr then .bitwise .or
  else if op = opXor then .bitwise .xor
  else if op = opEqual then .equal false
  else if op = opEqualVerify then .equal true
  else if op = op1Add then .unaryNum .add1
  else if op = op1Sub then .unaryNum .sub1
  else if op = opNegate then .unaryNum .negate
  else if op = opAbs then .unaryNum .abs
  else if op = opNot then .unaryNum .not
  else if op = op0NotEqual then .unaryNum .zeroNotEqual
  else if op = opAdd then .binaryNum .add
  else if op = opSub then .binaryNum .sub
  else if op = opDiv then .binaryNum .div
  else if op = opMod then .binaryNum .mod
  else if op = opBoolAnd then .binaryNum .boolAnd
  else if op = opBoolOr then .binaryNum .boolOr
  else if op = opNumEqual then .binaryNum .numEqual
  else if op = opNumEqualVerify then .binaryNum .numEqualVerify
  else if op = opNumNotEqual then .binaryNum .numNotEqual
  else if op = opLessThan then .binaryNum .lessThan
  else if op = opGreaterThan then .binaryNum .greaterThan
  else if op = opLessThanOrEqual then .binaryNum .lessThanOrEqual
  else if op = opGreaterThanOrEqual then .binaryNum .greaterThanOrEqual
  else if op = opMin then .binaryNum .min
  else if op = opMax then .binaryNum .max
  else if op = opWithin then .within
  else if op = opRipemd160 then .hash .ripemd160
  else if op = opSha1 then .hash .sha1
  else if op = opSha256 then .hash .sha256
  else if op = opHash160 then .hash .hash160
  else if op = opHash256 then .hash .hash256
  else if op = opCodeSeparator then .codeSeparator
  else if op = opCheckSig then .checkSig false
  else if op = opCheckSigVerify then .checkSig true
  else if op = opCheckMultiSig then .checkMultiSig false
  else if op = opCheckMultiSigVerify then .checkMultiSig true
  else if op = opCheckDataSig then .checkDataSig false
  else if op = opCheckDataSigVerify then .checkDataSig true
  else if op = opCat then .cat
  else if op = opSplit then .split
  else if op = opReverseBytes then .reverseBytes
  else if op = opNum2Bin then .num2Bin
  else if op = opBin2Num then .bin2Num
  else .badOpcode

example : decodeOpcodeCase (opIf + 2) = .badOpcode := by decide

end Membercoin
