import Membercoin.Script.GetOp

/-!
# Encoding rules for signatures, public keys and multisig bitfields

The checks that `OP_CHECKSIG`, `OP_CHECKMULTISIG` and `OP_CHECKDATASIG` apply
to their operands before any signature is verified (`script/interpreter.cpp`,
`script/bitfield.cpp`). The DER checks index the signature without bounds
checks, so every byte is read through `readByte`, which turns a read past the
end into `Fault.outOfBoundsRead`. Conditions joined by `&&` in the source are
nested `if`s here, so that a byte is read only where C++ reads it.

`CPubKey::CheckLowS` lives in the secp256k1 wrapper and is a parameter.
-/

namespace Membercoin

/-- An unchecked `vector::operator[]` read. -/
def readByte (v : List UInt8) (i : Nat) : Except Fault UInt8 :=
  match v[i]? with
  | some b => pure b
  | none => throw .outOfBoundsRead

theorem readByte_of_lt {v : List UInt8} {i : Nat} (h : i < v.length) : readByte v i = .ok v[i] := by
  simp only [readByte, List.getElem?_eq_getElem h]
  rfl

@[simp] theorem readByte_cons_zero (b : UInt8) (v : List UInt8) : readByte (b :: v) 0 = .ok b := rfl

@[simp] theorem readByte_cons_succ (b : UInt8) (v : List UInt8) (i : Nat) :
    readByte (b :: v) (i + 1) = readByte v i := rfl

/-- `GetHashType`: the last byte of a signature, `0` for an empty one. -/
def getHashType (vchSig : List UInt8) : UInt32 :=
  match vchSig.getLast? with
  | some b => b.toUInt32
  | none => 0

/-- `IsValidSignatureEncoding`: strict DER followed by a sighash byte. -/
def isValidSignatureEncoding (sig : List UInt8) : Except Fault Bool := do
  if sig.length < 9 then return false
  if sig.length > 73 then return false
  if (← readByte sig 0) ≠ 0x30 then return false
  if (← readByte sig 1).toNat ≠ sig.length - 3 then return false
  let lenR := (← readByte sig 3).toNat
  if 5 + lenR ≥ sig.length then return false
  let lenS := (← readByte sig (5 + lenR)).toNat
  if lenR + lenS + 7 ≠ sig.length then return false
  if (← readByte sig 2) ≠ 0x02 then return false
  if lenR = 0 then return false
  if (← readByte sig 4) &&& 0x80 ≠ 0 then return false
  if lenR > 1 then
    if (← readByte sig 4) = 0x00 then
      if (← readByte sig 5) &&& 0x80 = 0 then return false
  if (← readByte sig (lenR + 4)) ≠ 0x02 then return false
  if lenS = 0 then return false
  if (← readByte sig (lenR + 6)) &&& 0x80 ≠ 0 then return false
  if lenS > 1 then
    if (← readByte sig (lenR + 6)) = 0x00 then
      if (← readByte sig (lenR + 7)) &&& 0x80 = 0 then return false
  return true

/-- `IsValidSignatureEncodingWithoutSigHash`: strict DER with no trailing
sighash byte (data signatures). -/
def isValidSignatureEncodingWithoutSigHash (sig : List UInt8) : Except Fault Bool := do
  if sig.length < 8 ∨ sig.length > 72 then return false
  if (← readByte sig 0) ≠ 0x30 then return false
  if (← readByte sig 1).toNat ≠ sig.length - 2 then return false
  if (← readByte sig 2) ≠ 0x02 then return false
  let lenR := (← readByte sig 3).toNat
  if lenR = 0 then return false
  if (← readByte sig 4) &&& 0x80 ≠ 0 then return false
  if lenR > sig.length - 7 then return false
  if lenR > 1 then
    if (← readByte sig 4) = 0x00 then
      if (← readByte sig 5) &&& 0x80 = 0 then return false
  let startS := lenR + 4
  if (← readByte sig startS) ≠ 0x02 then return false
  let lenS := (← readByte sig (startS + 1)).toNat
  if lenS = 0 then return false
  if (← readByte sig (startS + 2)) &&& 0x80 ≠ 0 then return false
  if startS + lenS + 2 ≠ sig.length then return false
  if lenS > 1 then
    if (← readByte sig (startS + 2)) = 0x00 then
      if (← readByte sig (startS + 3)) &&& 0x80 = 0 then return false
  return true

/-- `IsLowDERSignature`: strict DER and a low `S` value. -/
def isLowDERSignature (checkLowS : List UInt8 → Bool) (vchSig : List UInt8)
    (checkSighash : Bool) : Except Fault Unit := do
  let valid ← if checkSighash then isValidSignatureEncoding vchSig
    else isValidSignatureEncodingWithoutSigHash vchSig
  failIf (!valid) .sigDer
  let vchSigCopy := vchSig.take (vchSig.length - if checkSighash then 1 else 0)
  failIf (!checkLowS vchSigCopy) .sigHighS

/-- `IsDefinedHashtypeSignature`: the base sighash type is `ALL`, `NONE` or
`SINGLE`. -/
def isDefinedHashtypeSignature (vchSig : List UInt8) : Bool :=
  if vchSig.length = 0 then false
  else
    let nHashType := getHashType vchSig &&& ~~~(sighashAnyoneCanPay ||| sighashForkId)
    !(nHashType < sighashAll ∨ nHashType > sighashSingle)

/-- `CheckSignatureEncodingSigHashChoice`: empty signatures pass, 64-byte
(65 with a sighash byte) ones are Schnorr, the rest must satisfy the DER rules
that the flags turn on. -/
def checkSignatureEncodingSigHashChoice (checkLowS : List UInt8 → Bool)
    (vchSig : List UInt8) (flags : UInt32) (checkSighash : Bool) : Except Fault Unit := do
  if vchSig.length = 0 then pure ()
  else if vchSig.length = 64 + (if checkSighash then 1 else 0) then
    if checkSighash ∧ hasFlag flags scriptVerifyStrictEnc then do
      failIf (!isDefinedHashtypeSignature vchSig) .sigHashtype
      if hasFlag flags scriptEnableSighashForkId then
        failIf ((← readByte vchSig 64).toUInt32 &&& sighashForkId = 0) .mustUseForkId
    else pure ()
  else do
    if hasFlag flags (scriptVerifyDerSig ||| scriptVerifyLowS ||| scriptVerifyStrictEnc) then
      let valid ← if checkSighash then isValidSignatureEncoding vchSig
        else isValidSignatureEncodingWithoutSigHash vchSig
      failIf (!valid) .sigDer
    if hasFlag flags scriptVerifyLowS then isLowDERSignature checkLowS vchSig checkSighash
    failIf (checkSighash ∧ hasFlag flags scriptVerifyStrictEnc ∧
      !isDefinedHashtypeSignature vchSig) .sigHashtype

/-- `CheckSignatureEncoding` (signatures with a sighash byte). -/
def checkSignatureEncoding (checkLowS : List UInt8 → Bool) (vchSig : List UInt8)
    (flags : UInt32) : Except Fault Unit :=
  checkSignatureEncodingSigHashChoice checkLowS vchSig flags true

/-- `CheckDataSignatureEncoding` (`OP_CHECKDATASIG` signatures). -/
def checkDataSignatureEncoding (checkLowS : List UInt8 → Bool) (vchSig : List UInt8)
    (flags : UInt32) : Except Fault Unit :=
  checkSignatureEncodingSigHashChoice checkLowS vchSig flags false

/-- `CheckTransactionECDSASignatureEncoding`: 65 bytes would be Schnorr. -/
def checkTransactionECDSASignatureEncoding (checkLowS : List UInt8 → Bool)
    (vchSig : List UInt8) (flags : UInt32) : Except Fault Unit :=
  if vchSig.length = 65 then throw (.scriptError .sigBadLength)
  else checkSignatureEncodingSigHashChoice checkLowS vchSig flags true

/-- `CheckTransactionSchnorrSignatureEncoding`: exactly 65 bytes. -/
def checkTransactionSchnorrSignatureEncoding (checkLowS : List UInt8 → Bool)
    (vchSig : List UInt8) (flags : UInt32) : Except Fault Unit :=
  if vchSig.length ≠ 65 then throw (.scriptError .sigNonSchnorr)
  else checkSignatureEncodingSigHashChoice checkLowS vchSig flags true

/-- `IsCompressedOrUncompressedPubKey`. -/
def isCompressedOrUncompressedPubKey (vchPubKey : List UInt8) : Bool :=
  match vchPubKey with
  | [] => false
  | b :: _ =>
    if vchPubKey.length < 33 then false
    else if b = 0x04 then vchPubKey.length = 65
    else if b = 0x02 ∨ b = 0x03 then vchPubKey.length = 33
    else false

/-- `IsCompressedPubKey`. -/
def isCompressedPubKey (vchPubKey : List UInt8) : Bool :=
  match vchPubKey with
  | [] => false
  | b :: _ => vchPubKey.length = 33 ∧ (b = 0x02 ∨ b = 0x03)

/-- `CheckPubKeyEncoding`. -/
def checkPubKeyEncoding (vchPubKey : List UInt8) (flags : UInt32) : Except Fault Unit := do
  failIf (hasFlag flags scriptVerifyStrictEnc ∧ !isCompressedOrUncompressedPubKey vchPubKey)
    .pubkeyType
  failIf (hasFlag flags scriptVerifyCompressedPubkeyType ∧ !isCompressedPubKey vchPubKey)
    .noncompressedPubkey

/-- `DecodeBitfield`: the little-endian bitfield of `size` bits, with no bit
set at or above `size`. -/
def decodeBitfield (vch : List UInt8) (size : Nat) : Except Fault Nat := do
  failIf (size > 32) .invalidBitfieldSize
  failIf (vch.length ≠ (size + 7) / 8) .invalidBitfieldSize
  let bitfield := CScriptNum.littleEndianValue vch
  let mask := (2 ^ size - 1) % 2 ^ 32
  failIf (bitfield &&& mask ≠ bitfield) .invalidBitRange
  return bitfield

/-- `countBits`: the number of set bits. -/
def countBits (v : Nat) : Nat := (Nat.bits v).count true

/-- `CleanupScriptCode`: without `SIGHASH_FORKID` the signature is cut out of
the code it signs. -/
def cleanupScriptCode (scriptCode vchSig : List UInt8) (flags : UInt32) : List UInt8 :=
  if !hasFlag flags scriptEnableSighashForkId ∨ getHashType vchSig &&& sighashForkId = 0 then
    (findAndDelete scriptCode (pushVector vchSig)).1
  else scriptCode

end Membercoin
