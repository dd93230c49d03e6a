import Membercoin.Script.Interpreter
import Membercoin.Lib.SetBits

/-!
# The Schnorr path of `OP_CHECKMULTISIG`

With `SCRIPT_ENABLE_SCHNORR_MULTISIG` and a non-empty dummy element, the
dummy is a bitfield that names the keys to check. Once `DecodeBitfield` has
accepted it (no bit at or above the key count) and `countBits` has matched
the signature count, the loop checks the `i`-th signature against the key at
the `i`-th set bit, found by advancing a cursor past the clear bits. The
source guards the loop with three "sanity checks" (`INVALID_BIT_RANGE`
before the inner `while`, `PUBKEY_COUNT` after it, and the trailing
`INVALID_BIT_COUNT`); `multisigSchnorr_eq_spec` shows the path equals the
version without them, so none of them can fire.

The cursor invariant is `SetBits.SetBitsAbove`: after `i` signatures the set
bits at or above the cursor are the bit indices from the `i`-th on.
-/

namespace Membercoin

open SetBits

theorem countBits_eq_length_bitIndices (v : Nat) : countBits v = (Nat.bitIndices v).length :=
  count_bits_eq_length_bitIndices v

/-- `DecodeBitfield` accepts only bitfields below `2 ^ size`. -/
theorem decodeBitfield_lt {vch : List UInt8} {size c : Nat} (h : decodeBitfield vch size = .ok c) :
    c < 2 ^ size := by
  unfold decodeBitfield at h
  obtain ⟨u₁, hsize, h⟩ := Except.bind_eq_ok_iff.1 h
  obtain ⟨u₂, -, h⟩ := Except.bind_eq_ok_iff.1 h
  obtain ⟨u₃, hmask, h⟩ := Except.bind_eq_ok_iff.1 h
  rw [failIf_eq_ok] at hsize hmask
  rw [Except.pure_eq_ok_iff] at h
  have hpow : 2 ^ size - 1 < 2 ^ 32 := by
    have := Nat.pow_le_pow_right (show 0 < 2 by decide) (show size ≤ 32 by omega)
    omega
  rw [Nat.mod_eq_of_lt hpow, Nat.and_two_pow_sub_one_eq_mod, not_not] at hmask
  rw [← h, ← hmask]
  exact Nat.mod_lt _ (Nat.two_pow_pos size)

/-- The inner `while` stops at the lowest set bit at or above the cursor. -/
theorem advanceToSetBit_eq {c i j : Nat} (hij : i ≤ j) (hj : c.testBit j = true)
    (hbelow : ∀ k, i ≤ k → k < j → c.testBit k = false) : advanceToSetBit c i = j := by
  obtain ⟨d, rfl⟩ : ∃ d, j = i + d := ⟨j - i, by omega⟩
  induction d generalizing i with
  | zero =>
    rw [Nat.add_zero] at hj ⊢
    have hne : c >>> i ≠ 0 := by
      rw [ne_eq, shiftRight_eq_zero_iff]
      intro hall
      rw [hall i le_rfl] at hj
      cases hj
    have hbit : ¬(c >>> i) &&& 1 = 0 := by
      rw [shiftRight_and_one_eq_zero_iff, hj]
      decide
    rw [advanceToSetBit, dif_neg hne, if_neg hbit]
  | succ d ih =>
    have hne : c >>> i ≠ 0 := by
      rw [ne_eq, shiftRight_eq_zero_iff]
      intro hall
      rw [hall (i + (d + 1)) (by omega)] at hj
      cases hj
    have hbit : (c >>> i) &&& 1 = 0 := by
      rw [shiftRight_and_one_eq_zero_iff]
      exact hbelow i le_rfl (by omega)
    rw [advanceToSetBit, dif_neg hne, if_pos hbit, ih (by omega)
      (by rwa [show i + 1 + d = i + (d + 1) by omega])
      (fun k hk hkj => hbelow k (by omega) (by omega))]
    omega

section loop

variable (crypto : CryptoFunctions) (checker : BaseSignatureChecker) (flags : UInt32)
  (scriptCode : List UInt8) (stack : List (List UInt8))

/-- One round of the Schnorr loop once its key is chosen: read signature
`iSig` and key `iKey`, check their encodings and the signature. -/
def schnorrCheckPair (idxBottomKey idxBottomSig iSig iKey : Nat) : Except Fault Unit := do
  let vchSig ← stacktop stack (idxBottomSig - iSig)
  let vchPubKey ← stacktop stack (idxBottomKey - iKey)
  checkTransactionSchnorrSignatureEncoding crypto.checkLowS vchSig flags
  checkPubKeyEncoding vchPubKey flags
  failIf (!checker.checkSig vchSig vchPubKey scriptCode) .sigNullFail

/-- The Schnorr path as the comments of the source describe it: once the
bitfield is decoded and its set bits counted, the `i`-th signature is checked
against the key at the `i`-th set bit (the pairs `(iKey, iSig)` of
`zipIdx`), and nothing else is tested. -/
def multisigSchnorrSpec (vchDummy : List UInt8) (nKeys nSigs idxTopKey idxTopSig : Nat) :
    Except Fault (Bool × Nat) := do
  let checkBits ← decodeBitfield vchDummy nKeys
  failIf (countBits checkBits ≠ nSigs) .invalidBitCount
  (Nat.bitIndices checkBits).zipIdx.forM fun p =>
    schnorrCheckPair crypto checker flags scriptCode stack (idxTopKey + nKeys - 1)
      (idxTopSig + nSigs - 1) p.2 p.1
  pure (true, nSigs)

variable {crypto checker flags scriptCode stack}

theorem multisigSchnorrLoop_succ {checkBits nKeysCount idxBottomKey idxBottomSig iSig iKey
    remaining : Nat} :
    multisigSchnorrLoop crypto checker flags scriptCode stack checkBits nKeysCount idxBottomKey
        idxBottomSig iSig iKey (remaining + 1) = (do
      failIf (checkBits >>> iKey = 0) .invalidBitRange
      failIf (advanceToSetBit checkBits iKey ≥ nKeysCount) .pubkeyCount
      schnorrCheckPair crypto checker flags scriptCode stack idxBottomKey idxBottomSig iSig
        (advanceToSetBit checkBits iKey)
      multisigSchnorrLoop crypto checker flags scriptCode stack checkBits nKeysCount idxBottomKey
        idxBottomSig (iSig + 1) (advanceToSetBit checkBits iKey + 1) remaining) := by
  rw [multisigSchnorrLoop]
  simp only [schnorrCheckPair, bind_assoc]

/-- From a cursor that has passed `iSig` set bits, the loop followed by the
trailing bit-count test runs the pair checks of the remaining bit indices,
and none of the three sanity checks fires. The induction is on the rounds
left, with `SetBitsAbove` as the invariant. -/
theorem multisigSchnorrLoop_eq_forM {c nKeysCount idxBottomKey idxBottomSig : Nat}
    (hc : c < 2 ^ nKeysCount) {α : Type} (x : α) (e : ScriptError) (remaining : Nat) :
    ∀ iSig iKey, SetBitsAbove c iKey iSig → iSig + remaining = (Nat.bitIndices c).length →
      (multisigSchnorrLoop crypto checker flags scriptCode stack c nKeysCount idxBottomKey
          idxBottomSig iSig iKey remaining >>= fun k => failIf (c >>> k ≠ 0) e >>= fun _ => pure x) =
        ((((Nat.bitIndices c).drop iSig).zipIdx iSig).forM fun p =>
          schnorrCheckPair crypto checker flags scriptCode stack idxBottomKey idxBottomSig p.2 p.1) >>=
          fun _ => pure x := by
  induction remaining with
  | zero =>
    intro iSig iKey hinv hlen
    have hend : c >>> iKey = 0 := hinv.shiftRight_eq_zero (by omega)
    rw [List.drop_eq_nil_of_le (by omega)]
    simp [multisigSchnorrLoop, failIf_of_not (not_not.mpr hend)]
  | succ r ih =>
    intro iSig iKey hinv hlen
    have hi : iSig < (Nat.bitIndices c).length := by omega
    obtain ⟨hk, hset, hbelow⟩ := hinv.least hi
    have hadv : advanceToSetBit c iKey = (Nat.bitIndices c)[iSig] := advanceToSetBit_eq hk hset hbelow
    rw [multisigSchnorrLoop_succ, hadv, failIf_of_not (hinv.shiftRight_ne_zero hi),
      failIf_of_not (not_le.mpr (lt_of_testBit hc hset)), List.drop_eq_getElem_cons hi,
      List.zipIdx_cons]
    simp only [List.forM_eq_forM, List.forM_cons, pure_bind, bind_assoc]
    congr 1
    funext u
    exact ih (iSig + 1) _ (hinv.next hi) (by omega)

end loop

/-- The Schnorr path of `OP_CHECKMULTISIG` pairs the `i`-th signature with
the key at the `i`-th set bit of the decoded bitfield and is otherwise the
source's path without its three sanity checks, which therefore never fire;
and its inner `while` stops at the lowest set bit at or above the cursor
whenever the check before it has found such a bit. -/
theorem multisigSchnorr_eq_spec (crypto : CryptoFunctions) (checker : BaseSignatureChecker)
    (flags : UInt32) (scriptCode : List UInt8) (stack : List (List UInt8)) (vchDummy : List UInt8)
    (nKeys nSigs idxTopKey idxTopSig : Nat) :
    multisigSchnorr crypto checker flags scriptCode stack vchDummy nKeys nSigs idxTopKey idxTopSig =
        multisigSchnorrSpec crypto checker flags scriptCode stack vchDummy nKeys nSigs idxTopKey
          idxTopSig ∧
      ∀ checkBits iKey, checkBits >>> iKey ≠ 0 →
        iKey ≤ advanceToSetBit checkBits iKey ∧ checkBits.testBit (advanceToSetBit checkBits iKey) ∧
          ∀ j, iKey ≤ j → j < advanceToSetBit checkBits iKey → checkBits.testBit j = false := by
  refine ⟨?_, ?_⟩
  · unfold multisigSchnorr multisigSchnorrSpec
    cases hdec : decodeBitfield vchDummy nKeys with
    | error f => rfl
    | ok c =>
      have hc := decodeBitfield_lt hdec
      simp only [Except.ok_bind]
      by_cases hcount : countBits c = nSigs
      · rw [failIf_of_not (not_not.mpr hcount), pure_bind, pure_bind]
        rw [countBits_eq_length_bitIndices] at hcount
        rw [multisigSchnorrLoop_eq_forM hc _ _ nSigs 0 0 (setBitsAbove_zero c) (by omega),
          List.drop_zero]
      · simp only [failIf, if_pos hcount]
        rfl
  · intro checkBits iKey hne
    have hex : ∃ j, iKey ≤ j ∧ checkBits.testBit j = true := by
      by_contra hnone
      apply hne
      rw [shiftRight_eq_zero_iff]
      intro j hj
      by_contra hbit
      exact hnone ⟨j, hj, Bool.not_eq_false _ ▸ hbit⟩
    obtain ⟨hle, hset⟩ := Nat.find_spec hex
    have hbelow : ∀ k, iKey ≤ k → k < Nat.find hex → checkBits.testBit k = false := by
      intro k hk hlt
      by_contra hbit
      exact Nat.find_min hex hlt ⟨hk, Bool.not_eq_false _ ▸ hbit⟩
    rw [advanceToSetBit_eq hle hset hbelow]
    exact ⟨hle, hset, hbelow⟩

end Membercoin
