import Membercoin.Script.ConditionStack
import Membercoin.Script.SigEncoding
import Membercoin.Lib.Except

/-!
# The script interpreter (`ScriptMachine`)

`ScriptMachine::Step` executes one operation: it reads the operation at
`pc`, counts it, rejects disabled opcodes, and then either pushes the data of
a push operation or runs the case of the big `switch` that the opcode selects
(in an unexecuted `OP_IF` branch only the conditional opcodes run). A step
that passes every check ends with the bound on the two stacks together.
`ScriptMachine::Eval` runs `BeginStep`, steps while `pc < pend`, and closes
with `EndStep`.

The machine is split in three: the fields that `Step` only reads
(`flags`, `maxOps`), the iterator `pc`, and the `ScriptState` that the
opcodes change. `execOpcode` (the `switch`) receives `pc` but returns only a
new `ScriptState`, so that no opcode can move `pc`.

Stacks are lists whose head is the top: `stacktop(-i)` is element `i - 1`.
Signature checking, lock-time checking and the hash functions are outside
the interpreter (`BaseSignatureChecker` is an abstract class, and the hashes
are the crypto library): they are the parameters `checker` and `crypto`. A
hash result has the length that the source allocates for it.
-/

namespace Membercoin

open CScriptNum

/-- The hash functions of the crypto opcodes, and `CPubKey::CheckLowS`. -/
structure CryptoFunctions where
  ripemd160 : List UInt8 → Vector UInt8 20
  sha1 : List UInt8 → Vector UInt8 20
  sha256 : List UInt8 → Vector UInt8 32
  hash160 : List UInt8 → Vector UInt8 20
  hash256 : List UInt8 → Vector UInt8 32
  checkLowS : List UInt8 → Bool

/-- The virtual methods of `BaseSignatureChecker` that `Step` calls. -/
structure BaseSignatureChecker where
  checkSig : (vchSig vchPubKey scriptCode : List UInt8) → Bool
  checkLockTime : CScriptNum → Bool
  checkSequence : CScriptNum → Bool
  verifySignature : (vchSig vchPubKey sighash : List UInt8) → Bool

/-- The base class's own methods: `CheckSig`, `CheckLockTime` and
`CheckSequence` reject everything, `VerifySignature` is the secp256k1 check. -/
def BaseSignatureChecker.base (verifySignature : List UInt8 → List UInt8 → List UInt8 → Bool) :
    BaseSignatureChecker where
  checkSig _ _ _ := false
  checkLockTime _ := false
  checkSequence _ := false
  verifySignature := verifySignature

/-- Hash functions with all-zero digests, a stand-in for the crypto library
when a script runs no hash or signature opcode. -/
def CryptoFunctions.zeroDigests : CryptoFunctions where
  ripemd160 _ := Vector.replicate 20 0
  sha1 _ := Vector.replicate 20 0
  sha256 _ := Vector.replicate 32 0
  hash160 _ := Vector.replicate 20 0
  hash256 _ := Vector.replicate 32 0
  checkLowS _ := true

/-- The part of `ScriptMachine` that the opcodes change. -/
structure ScriptState where
  stack : List (List UInt8)
  altstack : List (List UInt8)
  vfExec : ConditionStack
  pbegincodehash : List UInt8
  sighashtype : UInt8
  nOpCount : Nat
  consensusSigCheckCount : Nat

/-- `ScriptMachine`: the flags and operation limit it was built with, the
iterator into the script, and the state. -/
structure ScriptMachine where
  flags : UInt32
  maxOps : Nat
  pc : List UInt8
  state : ScriptState

/-- `vchTrue` and `vchFalse`. -/
def vchTrue : List UInt8 := [1]
def vchFalse : List UInt8 := []

/-- `CastToBool`: any non-zero byte makes a true value, except a sign bit
alone in the last byte (negative zero). -/
def castToBool : List UInt8 → Bool
  | [] => false
  | b :: rest => if b ≠ 0 then !(rest = [] ∧ b = 0x80) else castToBool rest

/-- `stacktop(-i)`: `std::vector::at` throws on a missing element, and the
`catch (...)` of `Step` turns that into `SCRIPT_ERR_UNKNOWN_ERROR`. -/
def stacktop (stack : List (List UInt8)) (i : Nat) : Except Fault (List UInt8) :=
  match stack[i - 1]? with
  | some v => pure v
  | none => throw (.scriptError .unknownError)

/-- A stack operation of the `switch` given as its effect on the stack,
`none` when there are too few elements
(`SCRIPT_ERR_INVALID_STACK_OPERATION`). -/
def stackShuffle (st : ScriptState)
    (f : List (List UInt8) → Option (List (List UInt8))) : Except Fault ScriptState :=
  match f st.stack with
  | some stack => pure { st with stack := stack }
  | none => throw (.scriptError .invalidStackOperation)

/-- The stack effect of a shuffle opcode, as the comments of the source give
it (`(x1 x2 -- x2)` and so on) but with the top of the stack first; `none`
when the stack is too short. -/
def ShuffleOp.apply : ShuffleOp → List (List UInt8) → Option (List (List UInt8))
  | .drop2, _ :: _ :: rest => some rest
  | .dup2, x2 :: x1 :: rest => some (x2 :: x1 :: x2 :: x1 :: rest)
  | .dup3, x3 :: x2 :: x1 :: rest => some (x3 :: x2 :: x1 :: x3 :: x2 :: x1 :: rest)
  | .over2, x4 :: x3 :: x2 :: x1 :: rest => some (x2 :: x1 :: x4 :: x3 :: x2 :: x1 :: rest)
  | .rot2, x6 :: x5 :: x4 :: x3 :: x2 :: x1 :: rest =>
    some (x2 :: x1 :: x6 :: x5 :: x4 :: x3 :: rest)
  | .swap2, x4 :: x3 :: x2 :: x1 :: rest => some (x2 :: x1 :: x4 :: x3 :: rest)
  | .ifDup, x :: rest => some (if castToBool x then x :: x :: rest else x :: rest)
  | .drop, _ :: rest => some rest
  | .dup, x :: rest => some (x :: x :: rest)
  | .nip, x2 :: _ :: rest => some (x2 :: rest)
  | .over, x2 :: x1 :: rest => some (x1 :: x2 :: x1 :: rest)
  | .rot, x3 :: x2 :: x1 :: rest => some (x1 :: x3 :: x2 :: rest)
  | .swap, x2 :: x1 :: rest => some (x1 :: x2 :: rest)
  | .tuck, x2 :: x1 :: rest => some (x2 :: x1 :: x2 :: rest)
  | _, _ => none

/-- The inner `switch` of `OP_1ADD` ... `OP_0NOTEQUAL`. -/
def unaryNumOp (op : UnaryNumOp) (bn : CScriptNum) : Except Fault CScriptNum :=
  match op with
  | .add1 => bn.addAssign 1
  | .sub1 => bn.subAssign 1
  | .negate => bn.neg
  | .abs => if bn.value < 0 then bn.neg else pure bn
  | .not => pure (ofBool (bn.value = 0))
  | .zeroNotEqual => pure (ofBool (bn.value ≠ 0))

/-- The inner `switch` of `OP_ADD` ... `OP_MAX`. -/
def binaryNumOp (op : BinaryNumOp) (bn1 bn2 : CScriptNum) : Except Fault CScriptNum :=
  match op with
  | .add => bn1.add bn2
  | .sub => bn1.sub bn2
  | .div => if bn2.value = 0 then throw (.scriptError .divByZero) else bn1.div bn2
  | .mod => if bn2.value = 0 then throw (.scriptError .modByZero) else bn1.mod bn2
  | .boolAnd => pure (ofBool (bn1.value ≠ 0 ∧ bn2.value ≠ 0))
  | .boolOr => pure (ofBool (bn1.value ≠ 0 ∨ bn2.value ≠ 0))
  | .numEqual => pure (ofBool (bn1.value = bn2.value))
  | .numEqualVerify => pure (ofBool (bn1.value = bn2.value))
  | .numNotEqual => pure (ofBool (bn1.value ≠ bn2.value))
  | .lessThan => pure (ofBool (bn1.value < bn2.value))
  | .greaterThan => pure (ofBool (bn1.value > bn2.value))
  | .lessThanOrEqual => pure (ofBool (bn1.value ≤ bn2.value))
  | .greaterThanOrEqual => pure (ofBool (bn1.value ≥ bn2.value))
  | .min => pure (if bn1.value < bn2.value then bn1 else bn2)
  | .max => pure (if bn1.value > bn2.value then bn1 else bn2)

/-- The byte operation of `OP_AND`, `OP_OR`, `OP_XOR`. -/
def BitwiseOp.apply : BitwiseOp → UInt8 → UInt8 → UInt8
  | .and => (· &&& ·)
  | .or => (· ||| ·)
  | .xor => (· ^^^ ·)

/-- The digest of a hash opcode, of the length the source allocates. -/
def HashOp.digest (crypto : CryptoFunctions) (op : HashOp) (vch : List UInt8) : List UInt8 :=
  match op with
  | .ripemd160 => (crypto.ripemd160 vch).toList
  | .sha1 => (crypto.sha1 vch).toList
  | .sha256 => (crypto.sha256 vch).toList
  | .hash160 => (crypto.hash160 vch).toList
  | .hash256 => (crypto.hash256 vch).toList

theorem HashOp.digest_length_le (crypto : CryptoFunctions) (op : HashOp) (vch : List UInt8) :
    (op.digest crypto vch).length ≤ 32 := by
  cases op <;> simp [HashOp.digest]

/-- A C++ `int` converted to `uint64_t` (for `OP_SPLIT` and `OP_NUM2BIN`):
negative values wrap to huge ones. -/
def toUInt64 (n : Int) : Nat := (n % 2 ^ 64).toNat

/-- `OP_NUM2BIN` after its size operand is read: `rawnum` is minimally
encoded in place, then padded to `size` bytes with the sign bit moved to the
new top byte. -/
def num2Bin (rawnum : List UInt8) (size : Nat) : Except Fault (List UInt8) :=
  let rawnum := (minimallyEncode rawnum).2
  if rawnum.length > size then throw (.scriptError .impossibleEncoding)
  else if rawnum.length = size then pure rawnum
  else
    match rawnum.getLast? with
    | none => pure (List.replicate (size - 1) 0 ++ [0x00])
    | some last =>
      let signbit := last &&& 0x80
      pure (rawnum.dropLast ++ [last &&& 0x7f] ++
        List.replicate (size - 1 - rawnum.length) 0 ++ [signbit])

/-- A successful `OP_NUM2BIN` produces exactly `size` bytes. -/
theorem num2Bin_length {rawnum out : List UInt8} {size : Nat} (h : num2Bin rawnum size = .ok out) :
    out.length = size := by
  unfold num2Bin at h
  dsimp only at h
  split_ifs at h with hgt heq
  · rw [← (Except.pure_eq_ok_iff.1 h), heq]
  · split at h
    · next hlast =>
      rw [← (Except.pure_eq_ok_iff.1 h)]
      have hnil := List.getLast?_eq_none_iff.mp hlast
      simp only [hnil, List.length_nil] at heq
      simp
      omega
    · next last hlast =>
      rw [← (Except.pure_eq_ok_iff.1 h)]
      have hne : (minimallyEncode rawnum).2 ≠ [] := by
        intro hnil
        simp [hnil] at hlast
      have hpos := List.length_pos_iff.mpr hne
      simp only [List.length_append, List.length_dropLast, List.length_cons, List.length_nil,
        List.length_replicate]
      omega

/-- The first set bit of `checkBits` at or above `iKey` (the inner `while`
of the Schnorr multisig loop). The source enters that loop only when such a
bit exists; the first test stands for that check. -/
def advanceToSetBit (checkBits iKey : Nat) : Nat :=
  if h : checkBits >>> iKey = 0 then iKey
  else if (checkBits >>> iKey) &&& 1 = 0 then advanceToSetBit checkBits (iKey + 1)
  else iKey
termination_by checkBits >>> iKey
decreasing_by
  rw [Nat.shiftRight_succ]
  exact Nat.div_lt_self (Nat.pos_of_ne_zero h) (by decide)

/-- The Schnorr `for (iSig ...)` loop of `OP_CHECKMULTISIG`: signature
`iSig` is checked against the key at the next set bit of `checkBits`. The
result is `iKey` after the loop. -/
def multisigSchnorrLoop (crypto : CryptoFunctions) (checker : BaseSignatureChecker)
    (flags : UInt32) (scriptCode : List UInt8) (stack : List (List UInt8))
    (checkBits nKeysCount idxBottomKey idxBottomSig : Nat) :
    (iSig iKey remaining : Nat) → Except Fault Nat
  | _, iKey, 0 => pure iKey
  | iSig, iKey, remaining + 1 => do
    failIf (checkBits >>> iKey = 0) .invalidBitRange
    let iKey := advanceToSetBit checkBits iKey
    failIf (iKey ≥ nKeysCount) .pubkeyCount
    let vchSig ← stacktop stack (idxBottomSig - iSig)
    let vchPubKey ← stacktop stack (idxBottomKey - iKey)
    checkTransactionSchnorrSignatureEncoding crypto.checkLowS vchSig flags
    checkPubKeyEncoding vchPubKey flags
    failIf (!checker.checkSig vchSig vchPubKey scriptCode) .sigNullFail
    multisigSchnorrLoop crypto checker flags scriptCode stack checkBits nKeysCount
      idxBottomKey idxBottomSig (iSig + 1) (iKey + 1) remaining

/-- The legacy `while (fSuccess && nSigsRemaining > 0)` loop of
`OP_CHECKMULTISIG`, by recursion on `nKeysRemaining`: each round consumes a
key, and while `fSuccess` holds there are at least as many keys left as
signatures, so the loop never runs with no key left. -/
def multisigLegacyLoop (crypto : CryptoFunctions) (checker : BaseSignatureChecker)
    (flags : UInt32) (scriptCode : List UInt8) (stack : List (List UInt8))
    (nSigsCount nKeysCount idxTopSig idxTopKey : Nat) :
    (fSuccess : Bool) → (nSigsRemaining nKeysRemaining : Nat) → Except Fault Bool
  | fSuccess, _, 0 => pure fSuccess
  | fSuccess, nSigsRemaining, nKeysRemaining + 1 =>
    if fSuccess ∧ nSigsRemaining > 0 then do
      let vchSig ← stacktop stack (idxTopSig + (nSigsCount - nSigsRemaining))
      let vchPubKey ← stacktop stack (idxTopKey + (nKeysCount - (nKeysRemaining + 1)))
      checkTransactionECDSASignatureEncoding crypto.checkLowS vchSig flags
      checkPubKeyEncoding vchPubKey flags
      let fOk := checker.checkSig vchSig vchPubKey scriptCode
      let nSigsRemaining := if fOk then nSigsRemaining - 1 else nSigsRemaining
      multisigLegacyLoop crypto checker flags scriptCode stack nSigsCount nKeysCount
        idxTopSig idxTopKey (!(nSigsRemaining > nKeysRemaining)) nSigsRemaining nKeysRemaining
    else pure fSuccess

/-- The end of `OP_EQUAL`, `OP_CHECKSIG`, `OP_CHECKMULTISIG` and
`OP_CHECKDATASIG` once their operands are popped: push the result, and in the
`VERIFY` variant pop it again or fail with `err`. -/
def pushOrVerify (verify fSuccess : Bool) (err : ScriptError) (st : ScriptState) :
    Except Fault ScriptState :=
  if verify then
    if fSuccess then pure st else throw (.scriptError err)
  else pure { st with stack := (if fSuccess then vchTrue else vchFalse) :: st.stack }

/-- `OP_CHECKSIG` and `OP_CHECKSIGVERIFY`. -/
def execCheckSig (crypto : CryptoFunctions) (checker : BaseSignatureChecker) (flags : UInt32)
    (verify : Bool) (st : ScriptState) : Except Fault ScriptState :=
  match st.stack with
  | vchPubKey :: vchSig :: rest => do
    let nHashType := getHashType vchSig
    let sighashtype := st.sighashtype ||| nHashType.toUInt8
    let scriptCode := (findAndDelete st.pbegincodehash (pushVector vchSig)).1
    let sigChecks := st.consensusSigCheckCount + if vchSig.length ≠ 0 then 1 else 0
    checkSignatureEncoding crypto.checkLowS vchSig flags
    checkPubKeyEncoding vchPubKey flags
    let fSuccess := checker.checkSig vchSig vchPubKey scriptCode
    failIf (!fSuccess ∧ hasFlag flags scriptVerifyNullFail ∧ vchSig.length ≠ 0) .sigNullFail
    pushOrVerify verify fSuccess .checkSigVerify
      { st with stack := rest, sighashtype := sighashtype, consensusSigCheckCount := sigChecks }
  | _ => throw (.scriptError .invalidStackOperation)

/-- The Schnorr path of `OP_CHECKMULTISIG` (a non-empty dummy element, read
as the bitfield of the keys to check). It can only succeed; the result is the
success flag and the number of signature checks it counts. The source's
closing `NULLFAIL` test needs a failure and so never fires. -/
def multisigSchnorr (crypto : CryptoFunctions) (checker : BaseSignatureChecker)
    (flags : UInt32) (scriptCode : List UInt8) (stack : List (List UInt8))
    (vchDummy : List UInt8) (nKeys nSigs idxTopKey idxTopSig : Nat) :
    Except Fault (Bool × Nat) := do
  let checkBits ← decodeBitfield vchDummy nKeys
  failIf (countBits checkBits ≠ nSigs) .invalidBitCount
  let idxBottomKey := idxTopKey + nKeys - 1
  let idxBottomSig := idxTopSig + nSigs - 1
  let iKey ← multisigSchnorrLoop crypto checker flags scriptCode stack checkBits nKeys
    idxBottomKey idxBottomSig 0 0 nSigs
  failIf (checkBits >>> iKey ≠ 0) .invalidBitCount
  pure (true, nSigs)

/-- The legacy path of `OP_CHECKMULTISIG` (ECDSA or null signatures): the
signatures are cut out of the signed code, then matched against the keys in
order. The result is the success flag and the number of signature checks. -/
def multisigLegacy (crypto : CryptoFunctions) (checker : BaseSignatureChecker)
    (flags : UInt32) (scriptCode : List UInt8) (stack : List (List UInt8))
    (nKeys nSigs idxTopKey idxSigCount : Nat) : Except Fault (Bool × Nat) := do
  -- the signatures, top one first: stacktop(-idxTopSig - i) for i < nSigsCount
  let sigs := (stack.drop idxSigCount).take nSigs
  let allNull := sigs.all (·.length = 0)
  let scriptCode := sigs.foldl (fun code vchSig => cleanupScriptCode code vchSig flags) scriptCode
  let fSuccess ← multisigLegacyLoop crypto checker flags scriptCode stack nSigs nKeys
    (idxSigCount + 1) idxTopKey true nSigs nKeys
  failIf (!fSuccess ∧ hasFlag flags scriptVerifyNullFail ∧ !allNull) .sigNullFail
  pure (fSuccess, if allNull then 0 else nKeys)

/-- `OP_CHECKMULTISIG` and `OP_CHECKMULTISIGVERIFY`: read the key count,
the keys, the signature count, the signatures and the dummy element, check
them along the Schnorr or the legacy path, and replace all of them by the
result. -/
def execCheckMultiSig (crypto : CryptoFunctions) (checker : BaseSignatureChecker)
    (flags : UInt32) (maxOps : Nat) (verify : Bool) (st : ScriptState) :
    Except Fault ScriptState := do
  let fRequireMinimal := hasFlag flags scriptVerifyMinimalData
  let idxKeyCount := 1
  failIf (st.stack.length < idxKeyCount) .invalidStackOperation
  let nKeysCount := (← ofVch (← stacktop st.stack idxKeyCount) fRequireMinimal 4).getint
  failIf (nKeysCount < 0 ∨ nKeysCount > maxPubkeysPerMultisig) .pubkeyCount
  let nKeys := nKeysCount.toNat
  let nOpCount := st.nOpCount + nKeys
  failIf (nOpCount > maxOps) .opCount
  let idxTopKey := idxKeyCount + 1
  let idxSigCount := idxTopKey + nKeys
  failIf (st.stack.length < idxSigCount) .invalidStackOperation
  let nSigsCount := (← ofVch (← stacktop st.stack idxSigCount) fRequireMinimal 4).getint
  failIf (nSigsCount < 0 ∨ nSigsCount > nKeysCount) .sigCount
  let nSigs := nSigsCount.toNat
  let idxTopSig := idxSigCount + 1
  let idxDummy := idxTopSig + nSigs
  failIf (st.stack.length < idxDummy) .invalidStackOperation
  let scriptCode := st.pbegincodehash
  let vchDummy ← stacktop st.stack idxDummy
  let (fSuccess, sigChecks) ←
    if hasFlag flags scriptEnableSchnorrMultisig ∧ vchDummy.length ≠ 0 then
      multisigSchnorr crypto checker flags scriptCode st.stack vchDummy nKeys nSigs idxTopKey
        idxTopSig
    else multisigLegacy crypto checker flags scriptCode st.stack nKeys nSigs idxTopKey idxSigCount
  pushOrVerify verify fSuccess .checkMultiSigVerify
    { st with nOpCount := nOpCount,
              consensusSigCheckCount := st.consensusSigCheckCount + sigChecks,
              stack := st.stack.drop idxDummy }

/-- `OP_CHECKDATASIG` and `OP_CHECKDATASIGVERIFY`. -/
def execCheckDataSig (crypto : CryptoFunctions) (checker : BaseSignatureChecker)
    (flags : UInt32) (verify : Bool) (st : ScriptState) : Except Fault ScriptState :=
  match st.stack with
  | vchPubKey :: vchMessage :: vchSig :: rest => do
    checkDataSignatureEncoding crypto.checkLowS vchSig flags
    checkPubKeyEncoding vchPubKey flags
    let (fSuccess, sigChecks) :=
      if vchSig.length ≠ 0 then
        (checker.verifySignature vchSig vchPubKey (crypto.sha256 vchMessage).toList, 1)
      else (false, 0)
    failIf (!fSuccess ∧ hasFlag flags scriptVerifyNullFail ∧ vchSig.length ≠ 0) .sigNullFail
    pushOrVerify verify fSuccess .checkDataSigVerify
      { st with stack := rest,
                consensusSigCheckCount := st.consensusSigCheckCount + sigChecks }
  | _ => throw (.scriptError .invalidStackOperation)

/-- `OP_CHECKLOCKTIMEVERIFY`: a NOP unless its flag is set; the operand may be
five bytes long (lock times beyond 2038). -/
def execCheckLockTimeVerify (checker : BaseSignatureChecker) (flags : UInt32)
    (st : ScriptState) : Except Fault ScriptState :=
  if !hasFlag flags scriptVerifyCheckLockTimeVerify then pure st
  else do
    failIf (st.stack.length < 1) .invalidStackOperation
    let nLockTime ← ofVch (← stacktop st.stack 1) (hasFlag flags scriptVerifyMinimalData) 5
    failIf (nLockTime.value < 0) .negativeLocktime
    failIf (!checker.checkLockTime nLockTime) .unsatisfiedLocktime
    pure st

/-- `OP_CHECKSEQUENCEVERIFY`: a NOP unless its flag is set, and also when the
operand has the disable flag. -/
def execCheckSequenceVerify (checker : BaseSignatureChecker) (flags : UInt32)
    (st : ScriptState) : Except Fault ScriptState :=
  if !hasFlag flags scriptVerifyCheckSequenceVerify then pure st
  else do
    failIf (st.stack.length < 1) .invalidStackOperation
    let nSequence ← ofVch (← stacktop st.stack 1) (hasFlag flags scriptVerifyMinimalData) 5
    failIf (nSequence.value < 0) .negativeLocktime
    if nSequence.value.toNat &&& sequenceLocktimeDisableFlag.toNat ≠ 0 then pure st
    else do
      failIf (!checker.checkSequence nSequence) .unsatisfiedLocktime
      pure st

/-- `OP_NOP1`, `OP_NOP4` ... `OP_NOP10`, kept for upgrades. -/
def execUpgradableNop (flags : UInt32) (st : ScriptState) : Except Fault ScriptState :=
  if hasFlag flags scriptVerifyDiscourageUpgradableNops then
    throw (.scriptError .discourageUpgradableNops)
  else pure st

/-- `OP_IF` and `OP_NOTIF`: in an executed branch pop the condition, in an
unexecuted one push `false` without looking at the stack. -/
def execIf (fExec notIf : Bool) (st : ScriptState) : Except Fault ScriptState :=
  if fExec then
    match st.stack with
    | vch :: rest =>
      let fValue := castToBool vch
      pure { st with stack := rest, vfExec := st.vfExec.pushBack (if notIf then !fValue else fValue) }
    | [] => throw (.scriptError .unbalancedConditional)
  else pure { st with vfExec := st.vfExec.pushBack false }

/-- `OP_ELSE`. -/
def execElse (st : ScriptState) : Except Fault ScriptState := do
  failIf st.vfExec.empty .unbalancedConditional
  pure { st with vfExec := ← st.vfExec.toggleTop }

/-- `OP_ENDIF`. -/
def execEndIf (st : ScriptState) : Except Fault ScriptState := do
  failIf st.vfExec.empty .unbalancedConditional
  pure { st with vfExec := ← st.vfExec.popBack }

/-- `OP_VERIFY`. -/
def execVerify (st : ScriptState) : Except Fault ScriptState :=
  match st.stack with
  | vch :: rest =>
    if castToBool vch then pure { st with stack := rest } else throw (.scriptError .verify)
  | [] => throw (.scriptError .invalidStackOperation)

/-- `OP_TOALTSTACK`. -/
def execToAltStack (st : ScriptState) : Except Fault ScriptState :=
  match st.stack with
  | vch :: rest => pure { st with stack := rest, altstack := vch :: st.altstack }
  | [] => throw (.scriptError .invalidStackOperation)

/-- `OP_FROMALTSTACK`. -/
def execFromAltStack (st : ScriptState) : Except Fault ScriptState :=
  match st.altstack with
  | vch :: rest => pure { st with stack := vch :: st.stack, altstack := rest }
  | [] => throw (.scriptError .invalidAltstackOperation)

/-- `OP_PICK` and `OP_ROLL`: copy (or move) element `n` below the operand to
the top. -/
def execPickRoll (flags : UInt32) (roll : Bool) (st : ScriptState) :
    Except Fault ScriptState :=
  match st.stack with
  | top :: rest@(_ :: _) => do
    let n := (← ofVch top (hasFlag flags scriptVerifyMinimalData) 4).getint
    failIf (n < 0 ∨ n ≥ rest.length) .invalidStackOperation
    let vch := rest.getD n.toNat []
    let rest := if roll then rest.eraseIdx n.toNat else rest
    pure { st with stack := vch :: rest }
  | _ => throw (.scriptError .invalidStackOperation)

/-- `OP_SIZE`: push the length of the top element. -/
def execSize (st : ScriptState) : Except Fault ScriptState :=
  match st.stack with
  | x :: _ => pure { st with stack := (ofSizeT x.length).getvch :: st.stack }
  | [] => throw (.scriptError .invalidStackOperation)

/-- `OP_AND`, `OP_OR` and `OP_XOR` on two operands of equal length. -/
def execBitwise (op : BitwiseOp) (st : ScriptState) : Except Fault ScriptState :=
  match st.stack with
  | vch2 :: vch1 :: rest =>
    if vch1.length ≠ vch2.length then throw (.scriptError .invalidOperandSize)
    else pure { st with stack := List.zipWith op.apply vch1 vch2 :: rest }
  | _ => throw (.scriptError .invalidStackOperation)

/-- `OP_EQUAL` and `OP_EQUALVERIFY`. -/
def execEqual (verify : Bool) (st : ScriptState) : Except Fault ScriptState :=
  match st.stack with
  | vch2 :: vch1 :: rest =>
    pushOrVerify verify (decide (vch1 = vch2)) .equalVerify { st with stack := rest }
  | _ => throw (.scriptError .invalidStackOperation)

/-- `OP_1ADD` ... `OP_0NOTEQUAL`. -/
def execUnaryNum (flags : UInt32) (op : UnaryNumOp) (st : ScriptState) :
    Except Fault ScriptState :=
  match st.stack with
  | top :: rest => do
    let bn ← ofVch top (hasFlag flags scriptVerifyMinimalData) 4
    let bn ← unaryNumOp op bn
    pure { st with stack := bn.getvch :: rest }
  | [] => throw (.scriptError .invalidStackOperation)

/-- `OP_ADD` ... `OP_MAX`; `OP_NUMEQUALVERIFY` pops its result again. -/
def execBinaryNum (flags : UInt32) (op : BinaryNumOp) (st : ScriptState) :
    Except Fault ScriptState :=
  match st.stack with
  | x2 :: x1 :: rest => do
    let fRequireMinimal := hasFlag flags scriptVerifyMinimalData
    let bn1 ← ofVch x1 fRequireMinimal 4
    let bn2 ← ofVch x2 fRequireMinimal 4
    let bn ← binaryNumOp op bn1 bn2
    if op = .numEqualVerify then
      if castToBool bn.getvch then pure { st with stack := rest }
      else throw (.scriptError .numEqualVerify)
    else pure { st with stack := bn.getvch :: rest }
  | _ => throw (.scriptError .invalidStackOperation)

/-- `OP_WITHIN`: `min <= x < max`. -/
def execWithin (flags : UInt32) (st : ScriptState) : Except Fault ScriptState :=
  match st.stack with
  | x3 :: x2 :: x1 :: rest => do
    let fRequireMinimal := hasFlag flags scriptVerifyMinimalData
    let bn1 ← ofVch x1 fRequireMinimal 4
    let bn2 ← ofVch x2 fRequireMinimal 4
    let bn3 ← ofVch x3 fRequireMinimal 4
    let fValue := decide (bn2.value ≤ bn1.value ∧ bn1.value < bn3.value)
    pure { st with stack := (if fValue then vchTrue else vchFalse) :: rest }
  | _ => throw (.scriptError .invalidStackOperation)

/-- `OP_RIPEMD160` ... `OP_HASH256`. -/
def execHash (crypto : CryptoFunctions) (op : HashOp) (st : ScriptState) :
    Except Fault ScriptState :=
  match st.stack with
  | vch :: rest => pure { st with stack := op.digest crypto vch :: rest }
  | [] => throw (.scriptError .invalidStackOperation)

/-- `OP_CAT`: the result may not exceed `MAX_SCRIPT_ELEMENT_SIZE`. -/
def execCat (st : ScriptState) : Except Fault ScriptState :=
  match st.stack with
  | vch2 :: vch1 :: rest =>
    if vch1.length + vch2.length > maxScriptElementSize then throw (.scriptError .pushSize)
    else pure { st with stack := (vch1 ++ vch2) :: rest }
  | _ => throw (.scriptError .invalidStackOperation)

/-- `OP_SPLIT`: the position is an `int` read as `uint64_t`. -/
def execSplit (flags : UInt32) (st : ScriptState) : Except Fault ScriptState :=
  match st.stack with
  | top :: data :: rest => do
    let position := toUInt64 (← ofVch top (hasFlag flags scriptVerifyMinimalData) 4).getint
    failIf (position > data.length) .invalidSplitRange
    pure { st with stack := data.drop position :: data.take position :: rest }
  | _ => throw (.scriptError .invalidStackOperation)

/-- `OP_REVERSEBYTES`, a bad opcode unless its flag is set. -/
def execReverseBytes (flags : UInt32) (st : ScriptState) : Except Fault ScriptState :=
  if !hasFlag flags scriptEnableOpReverseBytes then throw (.scriptError .badOpcode)
  else
    match st.stack with
    | data :: rest => pure { st with stack := data.reverse :: rest }
    | [] => throw (.scriptError .invalidStackOperation)

/-- `OP_NUM2BIN`: the size is an `int` read as `uint64_t`, at most
`MAX_SCRIPT_ELEMENT_SIZE`. -/
def execNum2Bin (flags : UInt32) (st : ScriptState) : Except Fault ScriptState :=
  match st.stack with
  | top :: rawnum :: rest => do
    let size := toUInt64 (← ofVch top (hasFlag flags scriptVerifyMinimalData) 4).getint
    failIf (size > maxScriptElementSize) .pushSize
    pure { st with stack := (← num2Bin rawnum size) :: rest }
  | _ => throw (.scriptError .invalidStackOperation)

/-- `OP_BIN2NUM`: the minimally encoded operand must be a valid number. -/
def execBin2Num (st : ScriptState) : Except Fault ScriptState :=
  match st.stack with
  | n :: rest =>
    let n := (minimallyEncode n).2
    if !isMinimallyEncoded n 4 then throw (.scriptError .invalidNumberRange)
    else pure { st with stack := n :: rest }
  | [] => throw (.scriptError .invalidStackOperation)

/-- The `switch` of `ScriptMachine::Step`, by case group. `fExec` says
whether the current branch is executed (only the conditional opcodes reach
here when it is not), and `pc` is the iterator after the opcode. -/
def execOpcode (crypto : CryptoFunctions) (checker : BaseSignatureChecker) (flags : UInt32)
    (maxOps : Nat) (fExec : Bool) (pc : List UInt8) :
    OpcodeCase → ScriptState → Except Fault ScriptState
  | .pushNumber opcode, st =>
    pure { st with stack := serialize ((opcode.toNat : Int) - ((op1.toNat : Int) - 1)) :: st.stack }
  | .nop, st => pure st
  | .checkLockTimeVerify, st => execCheckLockTimeVerify checker flags st
  | .checkSequenceVerify, st => execCheckSequenceVerify checker flags st
  | .upgradableNop, st => execUpgradableNop flags st
  | .ifNotIf notIf, st => execIf fExec notIf st
  | .elseCase, st => execElse st
  | .endIf, st => execEndIf st
  | .verify, st => execVerify st
  | .opReturn, _ => throw (.scriptError .opReturn)
  | .toAltStack, st => execToAltStack st
  | .fromAltStack, st => execFromAltStack st
  | .shuffle op, st => stackShuffle st op.apply
  | .depth, st => pure { st with stack := (ofSizeT st.stack.length).getvch :: st.stack }
  | .pickRoll roll, st => execPickRoll flags roll st
  | .size, st => execSize st
  | .bitwise op, st => execBitwise op st
  | .equal verify, st => execEqual verify st
  | .unaryNum op, st => execUnaryNum flags op st
  | .binaryNum op, st => execBinaryNum flags op st
  | .within, st => execWithin flags st
  | .hash op, st => execHash crypto op st
  | .codeSeparator, st => pure { st with pbegincodehash := pc }
  | .checkSig verify, st => execCheckSig crypto checker flags verify st
  | .checkMultiSig verify, st => execCheckMultiSig crypto checker flags maxOps verify st
  | .checkDataSig verify, st => execCheckDataSig crypto checker flags verify st
  | .cat, st => execCat st
  | .split, st => execSplit flags st
  | .reverseBytes, st => execReverseBytes flags st
  | .num2Bin, st => execNum2Bin flags st
  | .bin2Num, st => execBin2Num st
  | .badOpcode, _ => throw (.scriptError .badOpcode)

/-- The operation counter of `Step`: `OP_RESERVED` and the pushes do not
count towards the limit. -/
def countOp (maxOps : Nat) (opcode : UInt8) (st : ScriptState) : Except Fault ScriptState :=
  if opcode > op16 then
    if st.nOpCount + 1 > maxOps then throw (.scriptError .opCount)
    else pure { st with nOpCount := st.nOpCount + 1 }
  else pure st

/-- What `Step` does with an operation once it is read, counted and found
enabled: an executed push pushes its data, an executed opcode (or a
conditional opcode anywhere) runs its case of the `switch`, and anything
else in an unexecuted branch is skipped. -/
def dispatchOpcode (crypto : CryptoFunctions) (checker : BaseSignatureChecker)
    (flags : UInt32) (maxOps : Nat) (fExec : Bool) (opcode : UInt8)
    (vchPushValue pc : List UInt8) (st : ScriptState) : Except Fault ScriptState :=
  if fExec ∧ opcode ≤ opPushData4 then
    if hasFlag flags scriptVerifyMinimalData ∧ !checkMinimalPush vchPushValue opcode then
      throw (.scriptError .minimalData)
    else pure { st with stack := vchPushValue :: st.stack }
  else if fExec ∨ (opIf ≤ opcode ∧ opcode ≤ opEndIf) then
    execOpcode crypto checker flags maxOps fExec pc (decodeOpcodeCase opcode) st
  else pure st

/-- `ScriptMachine::Step`. -/
def ScriptMachine.step (crypto : CryptoFunctions) (checker : BaseSignatureChecker)
    (sm : ScriptMachine) : Except Fault ScriptMachine :=
  let fExec := sm.state.vfExec.allTrue
  match getOp2 sm.pc with
  | none => throw (.scriptError .badOpcode)
  | some (opcode, vchPushValue, pc) =>
    if vchPushValue.length > maxScriptElementSize then throw (.scriptError .pushSize)
    else countOp sm.maxOps opcode sm.state >>= fun st =>
      if isOpcodeDisabled opcode sm.flags then throw (.scriptError .disabledOpcode)
      else dispatchOpcode crypto checker sm.flags sm.maxOps fExec opcode vchPushValue pc st
        >>= fun st =>
          if st.stack.length + st.altstack.length > maxStackSize then
            throw (.scriptError .stackSize)
          else pure { sm with pc := pc, state := st }

/-- What a successful step did: it read an operation, passed the push-size,
operation-count and disabled-opcode checks, dispatched the operation and
left at most `MAX_STACK_SIZE` elements on the two stacks. -/
theorem ScriptMachine.step_eq_ok {crypto : CryptoFunctions} {checker : BaseSignatureChecker}
    {sm sm' : ScriptMachine} (h : sm.step crypto checker = .ok sm') :
    ∃ opcode vchPushValue pc st₁ st₂,
      getOp2 sm.pc = some (opcode, vchPushValue, pc) ∧
      vchPushValue.length ≤ maxScriptElementSize ∧
      countOp sm.maxOps opcode sm.state = .ok st₁ ∧
      isOpcodeDisabled opcode sm.flags = false ∧
      dispatchOpcode crypto checker sm.flags sm.maxOps sm.state.vfExec.allTrue opcode
        vchPushValue pc st₁ = .ok st₂ ∧
      st₂.stack.length + st₂.altstack.length ≤ maxStackSize ∧
      sm' = { sm with pc := pc, state := st₂ } := by
  unfold ScriptMachine.step at h
  rcases hop : getOp2 sm.pc with _ | ⟨opcode, vchPushValue, pc⟩
  · simp [hop] at h
  · simp only [hop] at h
    by_cases hsize : vchPushValue.length > maxScriptElementSize
    · rw [if_pos hsize] at h
      exact absurd h Except.throw_ne_ok
    rw [if_neg hsize] at h
    obtain ⟨st₁, hcount, h⟩ := Except.bind_eq_ok_iff.1 h
    by_cases hdis : isOpcodeDisabled opcode sm.flags = true
    · rw [if_pos hdis] at h
      exact absurd h Except.throw_ne_ok
    rw [if_neg hdis] at h
    obtain ⟨st₂, hdisp, h⟩ := Except.bind_eq_ok_iff.1 h
    by_cases hstack : st₂.stack.length + st₂.altstack.length > maxStackSize
    · rw [if_pos hstack] at h
      exact absurd h Except.throw_ne_ok
    rw [if_neg hstack] at h
    refine ⟨opcode, vchPushValue, pc, st₁, st₂, rfl, by omega, hcount, by simpa using hdis,
      hdisp, by omega, ?_⟩
    exact (Except.pure_eq_ok_iff.1 h).symm

/-- A step consumes at least one byte of the script. -/
theorem ScriptMachine.step_pc_length_lt {crypto : CryptoFunctions}
    {checker : BaseSignatureChecker} {sm sm' : ScriptMachine}
    (h : sm.step crypto checker = .ok sm') : sm'.pc.length < sm.pc.length := by
  obtain ⟨_, _, pc, _, _, hop, -, -, -, -, -, rfl⟩ := ScriptMachine.step_eq_ok h
  exact getOp2_length_lt hop

/-- `BeginStep`: point the machine at the start of a script, with an empty
condition stack and a fresh operation count; scripts longer than
`MAX_SCRIPT_SIZE` are refused. The stacks are kept. -/
def ScriptMachine.beginStep (sm : ScriptMachine) (script : List UInt8) :
    Except Fault ScriptMachine :=
  if script.length > maxScriptSize then throw (.scriptError .scriptSize)
  else pure { sm with pc := script,
                      state := { sm.state with pbegincodehash := script, sighashtype := 0,
                                               nOpCount := 0, vfExec := ConditionStack.init } }

/-- `EndStep`: every `OP_IF` must have been closed. -/
def ScriptMachine.endStep (sm : ScriptMachine) : Except Fault ScriptMachine :=
  if !sm.state.vfExec.empty then throw (.scriptError .unbalancedConditional) else pure sm

/-- The `while (pc < pend)` loop of `Eval`: step until the script is used up
or a step fails. It ends because every step consumes script bytes. -/
def ScriptMachine.evalLoop (crypto : CryptoFunctions) (checker : BaseSignatureChecker)
    (sm : ScriptMachine) : Except Fault ScriptMachine :=
  if sm.pc = [] then pure sm
  else
    match h : sm.step crypto checker with
    | .error e => .error e
    | .ok sm' => sm'.evalLoop crypto checker
termination_by sm.pc.length
decreasing_by exact ScriptMachine.step_pc_length_lt h

/-- `ScriptMachine::Eval`. -/
def ScriptMachine.eval (crypto : CryptoFunctions) (checker : BaseSignatureChecker)
    (sm : ScriptMachine) (script : List UInt8) : Except Fault ScriptMachine :=
  sm.beginStep script >>= fun sm => sm.evalLoop crypto checker >>= fun sm => sm.endStep

end Membercoin
