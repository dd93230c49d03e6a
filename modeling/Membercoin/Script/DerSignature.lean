import Membercoin.Script.SigEncoding
import Membercoin.Lib.Except

/-!
# Strict DER signatures

BIP66 fixes one encoding of an ECDSA signature,
`0x30 [total-length] 0x02 [R-length] [R] 0x02 [S-length] [S]`, at most 72
bytes, with each integer non-empty, non-negative and free of superfluous
leading zero bytes. `isStrictDER` states this grammar over the structure of
the byte list.

The interpreter tests it by index, twice: `IsValidSignatureEncoding` on a
signature followed by its sighash byte, `IsValidSignatureEncodingWithoutSigHash`
on a bare one. The two read the bytes in different orders and bound `lenR`
differently (the first reads `lenS` before it has bounded `lenR` by the
size). Each is shown to compute the grammar on every input without reading
past the end, so the two agree.
-/

namespace Membercoin

/-- One integer of a strict DER signature: at least one byte, the sign bit
clear, and a leading zero byte only in front of a byte with its high bit
set. -/
def isStrictDERInteger : List UInt8 → Bool
  | [] => false
  | [b] => b &&& 0x80 == 0
  | b :: c :: _ => b &&& 0x80 == 0 && !(b == 0 && c &&& 0x80 == 0)

/-- What follows the four header bytes: `lenR` bytes of `R`, `0x02`, the
length of `S`, and `S`. -/
def isStrictDERIntegers (lenR : Nat) (rest : List UInt8) : Bool :=
  match rest.drop lenR with
  | [] | [_] => false
  | b :: lenS :: s =>
    isStrictDERInteger (rest.take lenR) && b == 0x02 && s.length == lenS.toNat &&
      isStrictDERInteger s

/-- The strict DER grammar of a signature without sighash byte. -/
def isStrictDER : List UInt8 → Bool
  | [] | [_] | [_, _] | [_, _, _] => false
  | b0 :: len :: b2 :: lenR :: rest =>
    b0 == 0x30 && len.toNat == rest.length + 2 && b2 == 0x02 && rest.length ≤ 68 &&
      isStrictDERIntegers lenR.toNat rest

example : isStrictDER [0x30, 6, 0x02, 1, 0x01, 0x02, 1, 0x7f] = true := by decide

example : isStrictDER [0x30, 7, 0x02, 2, 0x00, 0x01, 0x02, 1, 0x7f] = false := by decide

theorem isStrictDERIntegers_zero (rest : List UInt8) : isStrictDERIntegers 0 rest = false := by
  unfold isStrictDERIntegers
  split <;> simp [isStrictDERInteger]

/-- Fewer than three bytes after `R` leave no room for a non-empty `S`. -/
theorem isStrictDERIntegers_of_lt {lenR : Nat} {rest : List UInt8}
    (h : rest.length < lenR + 3) : isStrictDERIntegers lenR rest = false := by
  unfold isStrictDERIntegers
  split
  · rfl
  · rfl
  · next b lenS s hdrop =>
    have hs : s = [] := by
      have hlen := congrArg List.length hdrop
      simp only [List.length_drop, List.length_cons] at hlen
      exact List.eq_nil_of_length_eq_zero (by omega)
    simp [hs, isStrictDERInteger]

theorem isStrictDERIntegers_split {lenR : Nat} {r0 t0 t1 : UInt8} {r t : List UInt8}
    (hr : r.length + 1 = lenR) :
    isStrictDERIntegers lenR (r0 :: (r ++ t0 :: t1 :: t)) =
      (isStrictDERInteger (r0 :: r) && t0 == 0x02 && t.length == t1.toNat &&
        isStrictDERInteger t) := by
  have hdrop : (r0 :: (r ++ t0 :: t1 :: t)).drop lenR = t0 :: t1 :: t := by
    rw [← hr]
    simp
  have htake : (r0 :: (r ++ t0 :: t1 :: t)).take lenR = r0 :: r := by
    rw [← hr]
    simp
  rw [isStrictDERIntegers, hdrop, htake]

theorem isStrictDER_length {sig : List UInt8} (h : isStrictDER sig = true) :
    8 ≤ sig.length ∧ sig.length ≤ 72 := by
  match sig, h with
  | b0 :: len :: b2 :: lenR :: rest, h =>
    simp only [isStrictDER, Bool.and_eq_true, decide_eq_true_eq] at h
    obtain ⟨⟨-, hle⟩, hints⟩ := h
    have hR : lenR.toNat ≠ 0 := by
      intro h0
      rw [h0, isStrictDERIntegers_zero] at hints
      cases hints
    have hS : lenR.toNat + 3 ≤ rest.length := by
      by_contra hlt
      rw [isStrictDERIntegers_of_lt (by omega)] at hints
      cases hints
    simp only [List.length_cons]
    omega

/-- A list long enough for `R` of `lenR ≥ 1` bytes and three more bytes,
split at `R`. -/
theorem exists_split_of_le {lenR : Nat} {rest : List UInt8} (h0 : 0 < lenR)
    (h : lenR + 3 ≤ rest.length) :
    ∃ r0 r t0 t1 t2 t, rest = r0 :: (r ++ t0 :: t1 :: t2 :: t) ∧ r.length + 1 = lenR := by
  obtain ⟨r0, r, hR⟩ : ∃ r0 r, rest.take lenR = r0 :: r := List.exists_cons_of_ne_nil (by
    rw [← List.length_pos_iff, List.length_take]
    omega)
  have hlenR : r.length + 1 = lenR := by
    have := congrArg List.length hR
    simp only [List.length_take, List.length_cons] at this
    omega
  have hS : 3 ≤ (rest.drop lenR).length := by
    rw [List.length_drop]
    omega
  match hdrop : rest.drop lenR, hS with
  | t0 :: t1 :: t2 :: t, _ =>
    refine ⟨r0, r, t0, t1, t2, t, ?_, hlenR⟩
    rw [← List.take_append_drop lenR rest, hR, hdrop]
    rfl

section split

variable {b0 len b2 lenR r0 t0 t1 t2 : UInt8} {r t : List UInt8}

/-- The bytes after `R`, read from the whole signature. -/
theorem readByte_after_R (hr : r.length + 1 = lenR.toNat) (i : Nat) :
    readByte (b0 :: len :: b2 :: lenR :: r0 :: (r ++ t)) (lenR.toNat + 4 + i) = readByte t i := by
  rw [← hr, show r.length + 1 + 4 + i = (r.length + i) + 1 + 1 + 1 + 1 + 1 by omega]
  simp [readByte, List.getElem?_append_right]

theorem readByte_five :
    readByte (b0 :: len :: b2 :: lenR :: r0 :: (r ++ t0 :: t)) 5 = .ok (r ++ [t0]).head! := by
  cases r <;> rfl

/-- `IsValidSignatureEncodingWithoutSigHash` on a signature with `R` of
`lenR ≥ 1` bytes and at least three bytes after it. -/
theorem isValidSignatureEncodingWithoutSigHash_split (hr : r.length + 1 = lenR.toNat)
    (hlen : r.length + t.length ≤ 64) :
    isValidSignatureEncodingWithoutSigHash (b0 :: len :: b2 :: lenR :: r0 :: (r ++ t0 :: t1 :: t2 :: t)) =
      .ok (isStrictDER (b0 :: len :: b2 :: lenR :: r0 :: (r ++ t0 :: t1 :: t2 :: t))) := by
  have hS : ∀ i, readByte (b0 :: len :: b2 :: lenR :: r0 :: (r ++ t0 :: t1 :: t2 :: t))
      (lenR.toNat + 4 + i) = readByte (t0 :: t1 :: t2 :: t) i := readByte_after_R hr
  have hS0 := hS 0
  rw [Nat.add_zero] at hS0
  have hR1 : 1 < lenR.toNat ↔ r ≠ [] := by
    rw [← hr, ← List.length_pos_iff]
    omega
  have hsum : lenR.toNat + 4 + t1.toNat + 2 = r.length + t.length + 8 ↔ t1.toNat = t.length + 1 := by
    omega
  have hsize : (b0 :: len :: b2 :: lenR :: r0 :: (r ++ t0 :: t1 :: t2 :: t)).length =
      r.length + t.length + 8 := by
    simp only [List.length_cons, List.length_append]
    omega
  unfold isValidSignatureEncodingWithoutSigHash
  simp only [readByte_five]
  simp only [hsize, hS0, hS 1, hS 2, hS 3, readByte_cons_zero, readByte_cons_succ, bind,
    Except.bind, pure, Except.pure]
  rw [isStrictDER, isStrictDERIntegers_split hr]
  simp only [List.length_cons, List.length_append, ne_eq, gt_iff_lt, hR1, hsum]
  cases t with
  | nil =>
    by_cases ht1 : t1.toNat = 1
    · simp only [ht1, List.length_nil, Nat.lt_irrefl, ↓reduceIte, Except.ite_ok, Except.ok.injEq]
      cases r <;> simp [isStrictDERInteger] <;> grind
    · have ht1' : ¬1 = t1.toNat := Ne.symm ht1
      cases r <;> simp [isStrictDERInteger, ht1, ht1']
  | cons t3 t =>
    simp only [readByte_cons_zero, List.length_cons, Except.ite_ok, Except.ok.injEq]
    cases r <;> simp [isStrictDERInteger] <;> grind

/-- `IsValidSignatureEncoding` on a signature with `R` of `lenR ≥ 1` bytes
and at least three bytes after it, the last of them the sighash byte. -/
theorem isValidSignatureEncoding_split (hr : r.length + 1 = lenR.toNat)
    (hlen : r.length + t.length ≤ 65) :
    isValidSignatureEncoding (b0 :: len :: b2 :: lenR :: r0 :: (r ++ t0 :: t1 :: t2 :: t)) =
      .ok (isStrictDER (b0 :: len :: b2 :: lenR :: r0 :: (r ++ t0 :: t1 :: t2 :: t)).dropLast) := by
  have hS : ∀ i, readByte (b0 :: len :: b2 :: lenR :: r0 :: (r ++ t0 :: t1 :: t2 :: t))
      (lenR.toNat + 4 + i) = readByte (t0 :: t1 :: t2 :: t) i := readByte_after_R hr
  have hS0 := hS 0
  rw [Nat.add_zero] at hS0
  have hlenS : readByte (b0 :: len :: b2 :: lenR :: r0 :: (r ++ t0 :: t1 :: t2 :: t))
      (5 + lenR.toNat) = .ok t1 := by
    rw [show 5 + lenR.toNat = lenR.toNat + 4 + 1 by omega, hS 1]
    rfl
  have hS2 : readByte (b0 :: len :: b2 :: lenR :: r0 :: (r ++ t0 :: t1 :: t2 :: t))
      (lenR.toNat + 6) = .ok t2 := hS 2
  have hS3 : readByte (b0 :: len :: b2 :: lenR :: r0 :: (r ++ t0 :: t1 :: t2 :: t))
      (lenR.toNat + 7) = readByte t 0 := hS 3
  have hR1 : 1 < lenR.toNat ↔ r ≠ [] := by
    rw [← hr, ← List.length_pos_iff]
    omega
  have hsum : lenR.toNat + t1.toNat + 7 = r.length + t.length + 8 ↔ t1.toNat = t.length := by
    omega
  have hsize : (b0 :: len :: b2 :: lenR :: r0 :: (r ++ t0 :: t1 :: t2 :: t)).length =
      r.length + t.length + 8 := by
    simp only [List.length_cons, List.length_append]
    omega
  have hdrop : (b0 :: len :: b2 :: lenR :: r0 :: (r ++ t0 :: t1 :: t2 :: t)).dropLast =
      b0 :: len :: b2 :: lenR :: r0 :: (r ++ t0 :: t1 :: (t2 :: t).dropLast) := by
    rw [List.dropLast_cons_cons, List.dropLast_cons_cons, List.dropLast_cons_cons,
      List.dropLast_cons_cons, List.dropLast_cons_of_ne_nil (by simp),
      List.dropLast_append_of_ne_nil (by simp), List.dropLast_cons_cons, List.dropLast_cons_cons]
  unfold isValidSignatureEncoding
  simp only [readByte_five]
  simp only [hsize, hS0, hlenS, hS2, hS3, readByte_cons_zero, readByte_cons_succ, bind,
    Except.bind, pure, Except.pure]
  rw [hdrop, isStrictDER, isStrictDERIntegers_split hr]
  simp only [List.length_cons, List.length_append, ne_eq, gt_iff_lt, ge_iff_le, hR1, hsum]
  cases t with
  | nil =>
    by_cases ht1 : t1.toNat = 0
    · simp only [ht1, List.length_nil, ↓reduceIte, Except.ite_ok, Except.ok.injEq]
      cases r <;> simp [isStrictDERInteger]
    · cases r <;> simp [isStrictDERInteger, ht1]
  | cons t3 t =>
    simp only [readByte_cons_zero, List.length_cons, Except.ite_ok, Except.ok.injEq,
      List.dropLast_cons_cons]
    cases r <;> cases t <;> simp [isStrictDERInteger] <;> grind

end split

theorem exists_eq_cons_five {l : List UInt8} (h : 5 ≤ l.length) :
    ∃ b0 b1 b2 b3 b4 rest, l = b0 :: b1 :: b2 :: b3 :: b4 :: rest := by
  match l, h with
  | b0 :: b1 :: b2 :: b3 :: b4 :: rest, _ => exact ⟨b0, b1, b2, b3, b4, rest, rfl⟩

/-- `IsValidSignatureEncodingWithoutSigHash` computes the strict DER grammar
and never reads past the end of the signature. -/
theorem isValidSignatureEncodingWithoutSigHash_eq (sig : List UInt8) :
    isValidSignatureEncodingWithoutSigHash sig = .ok (isStrictDER sig) := by
  by_cases hout : sig.length < 8 ∨ sig.length > 72
  · have hspec : isStrictDER sig = false := by
      cases h : isStrictDER sig
      · rfl
      · have := isStrictDER_length h
        omega
    rw [isValidSignatureEncodingWithoutSigHash, if_pos hout, hspec]
    rfl
  obtain ⟨b0, len, b2, lenR, x0, rest, rfl⟩ := exists_eq_cons_five (show 5 ≤ sig.length by omega)
  simp only [List.length_cons] at hout
  by_cases hR : 0 < lenR.toNat ∧ lenR.toNat + 3 ≤ rest.length + 1
  · obtain ⟨r0, r, t0, t1, t2, t, hsplit, hr⟩ :=
      exists_split_of_le hR.1 (show lenR.toNat + 3 ≤ (x0 :: rest).length from hR.2)
    have hlen := congrArg List.length hsplit
    simp only [List.length_cons, List.length_append] at hlen
    rw [hsplit]
    exact isValidSignatureEncodingWithoutSigHash_split hr (by omega)
  · have hspec : isStrictDERIntegers lenR.toNat (x0 :: rest) = false := by
      rcases Nat.eq_zero_or_pos lenR.toNat with h0 | h0
      · rw [h0]
        exact isStrictDERIntegers_zero _
      · exact isStrictDERIntegers_of_lt (by simp only [List.length_cons]; omega)
    unfold isValidSignatureEncodingWithoutSigHash
    rw [isStrictDER, hspec, Bool.and_false]
    simp only [readByte_cons_zero, readByte_cons_succ, List.length_cons, bind, Except.bind, pure,
      Except.pure]
    simp (disch := omega) only [if_pos, if_neg, ite_self]

/-- `IsValidSignatureEncoding` computes the strict DER grammar on the
signature without its sighash byte, and never reads past the end. -/
theorem isValidSignatureEncoding_eq (sig : List UInt8) :
    isValidSignatureEncoding sig = .ok (isStrictDER sig.dropLast) := by
  by_cases hout : sig.length < 9 ∨ sig.length > 73
  · have hspec : isStrictDER sig.dropLast = false := by
      cases h : isStrictDER sig.dropLast
      · rfl
      · have := isStrictDER_length h
        rw [List.length_dropLast] at this
        omega
    unfold isValidSignatureEncoding
    rw [hspec]
    simp (disch := omega) only [if_pos, ite_self]
    rfl
  obtain ⟨b0, len, b2, lenR, x0, rest, rfl⟩ := exists_eq_cons_five (show 5 ≤ sig.length by omega)
  simp only [List.length_cons] at hout
  by_cases hR : 0 < lenR.toNat ∧ lenR.toNat + 3 ≤ rest.length + 1
  · obtain ⟨r0, r, t0, t1, t2, t, hsplit, hr⟩ :=
      exists_split_of_le hR.1 (show lenR.toNat + 3 ≤ (x0 :: rest).length from hR.2)
    have hlen := congrArg List.length hsplit
    simp only [List.length_cons, List.length_append] at hlen
    rw [hsplit]
    exact isValidSignatureEncoding_split hr (by omega)
  · have hspec : isStrictDERIntegers lenR.toNat (x0 :: rest).dropLast = false := by
      rcases Nat.eq_zero_or_pos lenR.toNat with h0 | h0
      · rw [h0]
        exact isStrictDERIntegers_zero _
      · apply isStrictDERIntegers_of_lt
        rw [List.length_dropLast, List.length_cons]
        omega
    have hdrop : (b0 :: len :: b2 :: lenR :: x0 :: rest).dropLast =
        b0 :: len :: b2 :: lenR :: (x0 :: rest).dropLast := by
      simp only [List.dropLast_cons_cons]
    unfold isValidSignatureEncoding
    rw [hdrop, isStrictDER, hspec, Bool.and_false]
    simp only [readByte_cons_zero, readByte_cons_succ, List.length_cons, bind, Except.bind, pure,
      Except.pure]
    by_cases hin : 5 + lenR.toNat < rest.length + 5
    · rw [readByte_of_lt (show 5 + lenR.toNat < (b0 :: len :: b2 :: lenR :: x0 :: rest).length by
        simp only [List.length_cons]
        omega)]
      simp (disch := omega) only [if_pos, if_neg, ite_self]
    · simp (disch := omega) only [if_pos, if_neg, ite_self]

/-- The two DER checkers of the interpreter agree: on every signature,
`IsValidSignatureEncoding` gives what `IsValidSignatureEncodingWithoutSigHash`
gives on the signature without its last byte, namely whether that is a strict
DER signature, and neither reads past the end. -/
theorem isValidSignatureEncoding_eq_withoutSigHash (sig : List UInt8) :
    isValidSignatureEncoding sig = isValidSignatureEncodingWithoutSigHash sig.dropLast ∧
      isValidSignatureEncoding sig = .ok (isStrictDER sig.dropLast) := by
  rw [isValidSignatureEncoding_eq, isValidSignatureEncodingWithoutSigHash_eq]
  exact ⟨rfl, rfl⟩

end Membercoin
