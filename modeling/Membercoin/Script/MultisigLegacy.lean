import Membercoin.Script.Interpreter
import Membercoin.Lib.OrderedMatching

/-!
# The legacy `OP_CHECKMULTISIG` loop is a greedy ordered matching

The legacy path of `OP_CHECKMULTISIG` walks the signatures and the keys in
stack order, tries the current signature against the current key, moves to
the next signature only when the check succeeds and always moves to the next
key, and gives up as soon as more signatures than keys remain. This is
`OrderedMatching.greedyMatch` with that early exit, so with `CheckSig` a
fixed predicate the loop succeeds exactly when the signatures embed into the
keys along a strictly increasing map (`OrderedMatching.Embeds`).

The only errors the loop can raise come from the encoding checks of the
signatures and keys it visits: the stack reads are in range because
`OP_CHECKMULTISIG` has checked the stack size before.
-/

namespace Membercoin

open OrderedMatching

/-- The `n` elements from stack depth `idx` down: `stacktop(-idx)`,
`stacktop(-idx-1)`, and so on. -/
def stackWindow (stack : List (List UInt8)) (idx n : Nat) : List (List UInt8) :=
  (stack.drop (idx - 1)).take n

theorem length_stackWindow {stack : List (List UInt8)} {idx n : Nat}
    (h : idx - 1 + n ≤ stack.length) : (stackWindow stack idx n).length = n := by
  simp only [stackWindow, List.length_take, List.length_drop]
  omega

/-- Reading the window: `stacktop(-(idx + k))` is its `k`-th element, and
the rest of the window follows it. -/
theorem stacktop_stackWindow {stack : List (List UInt8)} {idx n k : Nat} (hidx : 0 < idx)
    (h : idx - 1 + n ≤ stack.length) (hk : k < n) :
    ∃ v, stacktop stack (idx + k) = .ok v ∧
      (stackWindow stack idx n).drop k = v :: (stackWindow stack idx n).drop (k + 1) := by
  have hlen := length_stackWindow h
  have hwin : k < (stackWindow stack idx n).length := by omega
  refine ⟨(stackWindow stack idx n)[k], ?_, List.drop_eq_getElem_cons hwin⟩
  have hstack : idx + k - 1 < stack.length := by omega
  simp only [stacktop, stackWindow, List.getElem_take, List.getElem_drop,
    List.getElem?_eq_getElem hstack]
  congr 2
  omega

/-- An error of one of the encoding checks on a signature or a key of the
windows. -/
def LegacyEncodingError (checkLowS : List UInt8 → Bool) (flags : UInt32)
    (sigs keys : List (List UInt8)) (e : Fault) : Prop :=
  (∃ s ∈ sigs, checkTransactionECDSASignatureEncoding checkLowS s flags = .error e) ∨
    ∃ k ∈ keys, checkPubKeyEncoding k flags = .error e

section loop

variable (crypto : CryptoFunctions) (checker : BaseSignatureChecker) (flags : UInt32)
  (scriptCode : List UInt8) (stack : List (List UInt8)) (nSigs nKeys idxTopSig idxTopKey : Nat)

/-- Once `fSuccess` is false the loop stops. -/
theorem multisigLegacyLoop_false (nSigsRemaining nKeysRemaining : Nat) :
    multisigLegacyLoop crypto checker flags scriptCode stack nSigs nKeys idxTopSig idxTopKey false
      nSigsRemaining nKeysRemaining = .ok false := by
  cases nKeysRemaining with
  | zero => rfl
  | succ k => simp [multisigLegacyLoop]

/-- The loop from a state with `nSigsRemaining ≤ nKeysRemaining` (the
invariant its early exit keeps) returns the greedy scan of the signatures and
keys still ahead, unless an encoding check fails on one it visits. The
induction is on `nKeysRemaining`, one key per round. -/
theorem multisigLegacyLoop_eq_greedyMatch (hsig : 0 < idxTopSig) (hkey : 0 < idxTopKey)
    (hsigs : idxTopSig - 1 + nSigs ≤ stack.length) (hkeys : idxTopKey - 1 + nKeys ≤ stack.length)
    (nKeysRemaining : Nat) :
    ∀ nSigsRemaining, nSigsRemaining ≤ nSigs → nKeysRemaining ≤ nKeys →
      nSigsRemaining ≤ nKeysRemaining →
      multisigLegacyLoop crypto checker flags scriptCode stack nSigs nKeys idxTopSig idxTopKey true
          nSigsRemaining nKeysRemaining =
        .ok (greedyMatch (fun s k => checker.checkSig s k scriptCode)
          ((stackWindow stack idxTopSig nSigs).drop (nSigs - nSigsRemaining))
          ((stackWindow stack idxTopKey nKeys).drop (nKeys - nKeysRemaining))) ∨
      ∃ e, multisigLegacyLoop crypto checker flags scriptCode stack nSigs nKeys idxTopSig idxTopKey
          true nSigsRemaining nKeysRemaining = .error e ∧
        LegacyEncodingError crypto.checkLowS flags (stackWindow stack idxTopSig nSigs)
          (stackWindow stack idxTopKey nKeys) e := by
  have hsigLen := length_stackWindow hsigs
  have hkeyLen := length_stackWindow hkeys
  induction nKeysRemaining with
  | zero =>
    intro nSigsRemaining _ _ hle
    have h0 : nSigsRemaining = 0 := by omega
    subst h0
    left
    rw [Nat.sub_zero, List.drop_eq_nil_of_le (by omega), greedyMatch_nil_left]
    rfl
  | succ kR ih =>
    intro sR hsR hkR hle
    cases sR with
    | zero =>
      left
      rw [Nat.sub_zero, List.drop_eq_nil_of_le (by omega), greedyMatch_nil_left]
      simp [multisigLegacyLoop]
    | succ sR =>
      obtain ⟨s, hs, hsigsDrop⟩ := stacktop_stackWindow hsig hsigs (show nSigs - (sR + 1) < nSigs by omega)
      obtain ⟨k, hk, hkeysDrop⟩ := stacktop_stackWindow hkey hkeys (show nKeys - (kR + 1) < nKeys by omega)
      have hsMem : s ∈ stackWindow stack idxTopSig nSigs :=
        List.mem_of_mem_drop (hsigsDrop ▸ List.mem_cons_self)
      have hkMem : k ∈ stackWindow stack idxTopKey nKeys :=
        List.mem_of_mem_drop (hkeysDrop ▸ List.mem_cons_self)
      rw [show nSigs - (sR + 1) + 1 = nSigs - sR by omega] at hsigsDrop
      rw [show nKeys - (kR + 1) + 1 = nKeys - kR by omega] at hkeysDrop
      rw [hsigsDrop, hkeysDrop, greedyMatch_cons_cons]
      simp only [multisigLegacyLoop, true_and, Nat.succ_pos, ↓reduceIte, hs, hk, Except.ok_bind]
      cases hencS : checkTransactionECDSASignatureEncoding crypto.checkLowS s flags with
      | error e => exact .inr ⟨e, rfl, .inl ⟨s, hsMem, hencS⟩⟩
      | ok u =>
        cases hencK : checkPubKeyEncoding k flags with
        | error e => exact .inr ⟨e, rfl, .inr ⟨k, hkMem, hencK⟩⟩
        | ok u' =>
          simp only [Except.ok_bind]
          by_cases hok : checker.checkSig s k scriptCode = true
          · simp only [hok, ↓reduceIte, Nat.add_sub_cancel]
            by_cases hover : sR > kR
            · left
              rw [decide_eq_true hover, Bool.not_true, multisigLegacyLoop_false,
                greedyMatch_of_length_lt (by simp only [List.length_drop]; omega)]
            · rw [decide_eq_false hover, Bool.not_false]
              rcases ih sR (by omega) (by omega) (by omega) with h | h
              · left
                rw [h]
              · exact .inr h
          · simp only [hok, Bool.false_eq_true, ↓reduceIte]
            by_cases hover : sR + 1 > kR
            · left
              rw [decide_eq_true hover, Bool.not_true, multisigLegacyLoop_false,
                greedyMatch_of_length_lt (by simp only [List.length_cons, List.length_drop]; omega)]
            · rw [decide_eq_false hover, Bool.not_false]
              rcases ih (sR + 1) hsR (by omega) (by omega) with h | h
              · left
                rw [h, hsigsDrop]
              · exact .inr h

/-- With `CheckSig` a fixed predicate, the legacy `OP_CHECKMULTISIG` loop
over `nSigs ≤ nKeys` signatures and keys, whenever none of the encoding
checks it makes fails, succeeds exactly when the signatures embed into the
keys along a strictly increasing map of positions; and when every signature
and key passes its encoding check, it returns. It runs one round per key
(the recursion is on `nKeysRemaining`), so at most `nKeys` rounds. -/
theorem multisigLegacyLoop_iff_embeds (hm : nSigs ≤ nKeys) (hsig : 0 < idxTopSig)
    (hkey : 0 < idxTopKey) (hsigs : idxTopSig - 1 + nSigs ≤ stack.length)
    (hkeys : idxTopKey - 1 + nKeys ≤ stack.length) :
    (∀ b, multisigLegacyLoop crypto checker flags scriptCode stack nSigs nKeys idxTopSig idxTopKey
        true nSigs nKeys = .ok b →
      (b = true ↔ Embeds (fun s k => checker.checkSig s k scriptCode)
        (stackWindow stack idxTopSig nSigs) (stackWindow stack idxTopKey nKeys))) ∧
    ((∀ s ∈ stackWindow stack idxTopSig nSigs,
        checkTransactionECDSASignatureEncoding crypto.checkLowS s flags = .ok ()) →
      (∀ k ∈ stackWindow stack idxTopKey nKeys, checkPubKeyEncoding k flags = .ok ()) →
      ∃ b, multisigLegacyLoop crypto checker flags scriptCode stack nSigs nKeys idxTopSig
        idxTopKey true nSigs nKeys = .ok b) := by
  have hrun := multisigLegacyLoop_eq_greedyMatch crypto checker flags scriptCode stack nSigs nKeys
    idxTopSig idxTopKey hsig hkey hsigs hkeys nKeys nSigs le_rfl le_rfl hm
  rw [Nat.sub_self, Nat.sub_self, List.drop_zero, List.drop_zero] at hrun
  constructor
  · intro b hb
    rcases hrun with h | ⟨e, he, -⟩
    · rw [hb, Except.ok.injEq] at h
      rw [h]
      exact greedyMatch_iff
    · rw [hb] at he
      cases he
  · intro hS hK
    rcases hrun with h | ⟨e, he, herr⟩
    · exact ⟨_, h⟩
    · exfalso
      rcases herr with ⟨s, hs, hse⟩ | ⟨k, hk, hke⟩
      · rw [hS s hs] at hse
        cases hse
      · rw [hK k hk] at hke
        cases hke

end loop

/-- Two keys `[1]`, `[2]` and one signature `[2]`, with `CheckSig` testing
equality: the loop skips the first key and matches the second. -/
theorem multisigLegacyLoop_iff_embeds_twoKeys :
    1 ≤ 2 ∧ 0 < 3 ∧ 0 < 1 ∧ 3 - 1 + 1 ≤ [[1], [2], [2]].length ∧ 1 - 1 + 2 ≤ [[1], [2], [2]].length ∧
    ((∀ b, multisigLegacyLoop CryptoFunctions.zeroDigests
          ⟨fun s k _ => s == k, fun _ => false, fun _ => false, fun _ _ _ => false⟩ 0 []
          [[1], [2], [2]] 1 2 3 1 true 1 2 = .ok b →
        (b = true ↔ Embeds (fun (s k : List UInt8) => s == k)
          (stackWindow [[1], [2], [2]] 3 1) (stackWindow [[1], [2], [2]] 1 2))) ∧
      ((∀ s ∈ stackWindow [[1], [2], [2]] 3 1,
          checkTransactionECDSASignatureEncoding CryptoFunctions.zeroDigests.checkLowS s 0 = .ok ()) →
        (∀ k ∈ stackWindow [[1], [2], [2]] 1 2, checkPubKeyEncoding k 0 = .ok ()) →
        ∃ b, multisigLegacyLoop CryptoFunctions.zeroDigests
          ⟨fun s k _ => s == k, fun _ => false, fun _ => false, fun _ _ _ => false⟩ 0 []
          [[1], [2], [2]] 1 2 3 1 true 1 2 = .ok b)) :=
  ⟨by decide, by decide, by decide, by decide, by decide,
    multisigLegacyLoop_iff_embeds CryptoFunctions.zeroDigests
      ⟨fun s k _ => s == k, fun _ => false, fun _ => false, fun _ _ _ => false⟩ 0 []
      [[1], [2], [2]] 1 2 3 1 (by decide) (by decide) (by decide) (by decide) (by decide)⟩

end Membercoin
