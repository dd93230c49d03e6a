import Membercoin.Script.ScriptNumCodec

/-!
# Writing a push and reading it back

`CScript::operator<<` writes a byte vector as `OP_0`, as one of the number
opcodes `OP_1NEGATE`, `OP_1` ... `OP_16`, or through `serializeVector` as a
direct push or an `OP_PUSHDATA1/2/4` push with a little-endian length. This
module proves that `GetOp2` reads every such push back and that the push is
the one `CheckMinimalPush` asks for: the encoder, the decoder and the minimality
rule agree on the boundaries `75`, `255` and `65535`.
-/

namespace Membercoin

open CScriptNum

/-! ## Length fields -/
theorem length_writeLE (n v : Nat) : (writeLE n v).length = n := by
  simp [writeLE]

theorem littleEndianValue_writeLE (n v : Nat) : littleEndianValue (writeLE n v) = v % 256 ^ n := by
  induction n with
  | zero => simp [writeLE, littleEndianValue, Nat.mod_one]
  | succ n ih =>
    have hbyte : (v / 256 ^ n % 256).toUInt8.toNat = v / 256 ^ n % 256 := by
      simp [Nat.toUInt8_eq, UInt8.toNat_ofNat', Nat.mod_mod_of_dvd]
    rw [writeLE, List.range_succ, List.map_append, List.map_singleton, ← writeLE,
      littleEndianValue_append_singleton, ih, length_writeLE, hbyte, Nat.mod_pow_succ]

/-! ## `serializeVector` -/

/-- On data with no one-opcode form, `CheckMinimalPush` of a push opcode
only compares the opcode with the length tier. -/
theorem checkMinimalPush_eq {data : List UInt8} {opcode : UInt8} (hop : opcode ≤ opPushData4)
    (hne : data.length ≠ 0) (hsmall : ¬(data.length = 1 ∧ (1 : UInt8) ≤ data[0]! ∧ data[0]! ≤ 16))
    (hneg : ¬(data.length = 1 ∧ data[0]! = 0x81)) :
    checkMinimalPush data opcode =
      if data.length ≤ 75 then decide (opcode.toNat = data.length)
      else if data.length ≤ 255 then decide (opcode = opPushData1)
      else if data.length ≤ 65535 then decide (opcode = opPushData2)
      else true := by
  have hpush : ¬(op0 > opcode ∨ opcode > opPushData4) := by
    simp only [op0, gt_iff_lt, UInt8.lt_iff_toNat_lt, UInt8.le_iff_toNat_le] at hop ⊢
    simp
    omega
  rw [checkMinimalPush, if_neg hpush, if_neg hne, if_neg hsmall, if_neg hneg]

/-- `GetOp2` on a push opcode whose length field gives the data in front of
`rest`. -/
theorem getOp2_of_pushDataSize {opcode : UInt8} {header b rest : List UInt8}
    (hop : opcode ≤ opPushData4) (hsize : pushDataSize opcode (header ++ b ++ rest) = some (b.length, b ++ rest)) :
    getOp2 (opcode :: (header ++ b ++ rest)) = some (opcode, b, rest) := by
  simp only [getOp2, if_pos hop, hsize]
  simp

theorem pushDataSize_pushData2 {rest : List UInt8} (h : 2 ≤ rest.length) :
    pushDataSize opPushData2 rest = some (littleEndianValue (rest.take 2), rest.drop 2) := by
  simp [pushDataSize, show ¬opPushData2 < opPushData1 by decide, show opPushData2 ≠ opPushData1 by decide,
    show ¬rest.length < 2 by omega]

theorem pushDataSize_pushData4 {rest : List UInt8} (h : 4 ≤ rest.length) :
    pushDataSize opPushData4 rest = some (littleEndianValue (rest.take 4), rest.drop 4) := by
  simp [pushDataSize, show ¬opPushData4 < opPushData1 by decide, show opPushData4 ≠ opPushData1 by decide,
    show opPushData4 ≠ opPushData2 by decide, show ¬rest.length < 4 by omega]

/-- The length field `writeLE n` of a push, for a length that fits it. -/
theorem pushDataSize_writeLE {opcode : UInt8} {n : Nat} {b rest : List UInt8} (hn : b.length < 256 ^ n)
    (hsize : pushDataSize opcode (writeLE n b.length ++ b ++ rest) =
      some (littleEndianValue ((writeLE n b.length ++ b ++ rest).take n), (writeLE n b.length ++ b ++ rest).drop n)) :
    pushDataSize opcode (writeLE n b.length ++ b ++ rest) = some (b.length, b ++ rest) := by
  have hlen := length_writeLE n b.length
  rw [hsize, List.append_assoc, List.take_left' hlen, List.drop_left' hlen, littleEndianValue_writeLE,
    Nat.mod_eq_of_lt hn]

/-- `GetOp2` reads back a push written by `serializeVector`, whatever
follows it, and the push is minimal unless a one-opcode form existed. -/
theorem getOp2_serializeVector {b : List UInt8} (hb : b.length < 2 ^ 32) (rest : List UInt8)
    (hne : b ≠ []) (hsmall : ¬(b.length = 1 ∧ (1 : UInt8) ≤ b[0]! ∧ b[0]! ≤ 16))
    (hneg : ¬(b.length = 1 ∧ b[0]! = 0x81)) :
    ∃ opcode, getOp2 (serializeVector b ++ rest) = some (opcode, b, rest) ∧
      checkMinimalPush b opcode = true := by
  have hlen0 : b.length ≠ 0 := by simpa using hne
  have hpd1 : opPushData1.toNat = 76 := rfl
  have hpd4 : opPushData4.toNat = 78 := rfl
  unfold serializeVector
  split_ifs with h1 h2 h3
  · have hop : b.length.toUInt8.toNat = b.length := by
      simp [Nat.toUInt8_eq, UInt8.toNat_ofNat', Nat.mod_eq_of_lt (show b.length < 256 by omega)]
    have hlt : b.length.toUInt8 < opPushData1 := by rw [UInt8.lt_iff_toNat_lt, hop]; exact h1
    have hle : b.length.toUInt8 ≤ opPushData4 := by rw [UInt8.le_iff_toNat_le, hop, hpd4]; omega
    refine ⟨b.length.toUInt8, ?_, ?_⟩
    · have hsize : pushDataSize b.length.toUInt8 ([] ++ b ++ rest) = some (b.length, b ++ rest) := by
        simp [pushDataSize, hlt, hop]
      exact getOp2_of_pushDataSize hle hsize
    · rw [checkMinimalPush_eq hle hlen0 hsmall hneg, if_pos (by omega), hop]
      simp
  · have hop : b.length.toUInt8.toNat = b.length := by
      simp [Nat.toUInt8_eq, UInt8.toNat_ofNat', Nat.mod_eq_of_lt (show b.length < 256 by omega)]
    refine ⟨opPushData1, ?_, ?_⟩
    · have hsize : pushDataSize opPushData1 ([b.length.toUInt8] ++ b ++ rest) = some (b.length, b ++ rest) := by
        simp [pushDataSize, hop]
      exact getOp2_of_pushDataSize (by decide) hsize
    · rw [checkMinimalPush_eq (by decide) hlen0 hsmall hneg, if_neg (by omega), if_pos h2]
      simp
  · refine ⟨opPushData2, ?_, ?_⟩
    · have hsize : pushDataSize opPushData2 (writeLE 2 b.length ++ b ++ rest) = some (b.length, b ++ rest) :=
        pushDataSize_writeLE (by omega) (pushDataSize_pushData2 (by simp [length_writeLE]))
      exact getOp2_of_pushDataSize (by decide) hsize
    · rw [checkMinimalPush_eq (by decide) hlen0 hsmall hneg, if_neg (by omega), if_neg h2, if_pos h3]
      simp
  · refine ⟨opPushData4, ?_, ?_⟩
    · have hsize : pushDataSize opPushData4 (writeLE 4 b.length ++ b ++ rest) = some (b.length, b ++ rest) :=
        pushDataSize_writeLE (by omega) (pushDataSize_pushData4 (by simp [length_writeLE]))
      exact getOp2_of_pushDataSize (by decide) hsize
    · rw [checkMinimalPush_eq (by decide) hlen0 hsmall hneg, if_neg (by omega), if_neg h2, if_neg h3]

/-! ## `operator<<` -/

/-- A one-byte magnitude below the sign bit serializes to its own byte, with
the sign bit set when negative. -/
theorem serialize_signedValue_of_lt (neg : Bool) {n : Nat} (h0 : n ≠ 0) (h : n < 128) :
    serialize (signedValue neg n) = if neg then [n.toUInt8 ||| 0x80] else [n.toUInt8] := by
  have hbyte : n.toUInt8.toNat = n := by
    simp [Nat.toUInt8_eq, UInt8.toNat_ofNat', Nat.mod_eq_of_lt (show n < 256 by omega)]
  have hbytes : magnitudeBytes n = [] ++ [n.toUInt8] := by
    simp [magnitudeBytes, Nat.digits_of_lt 256 n h0 (by omega)]
  rw [serialize_signedValue neg h0, hbytes, signMagnitude_append, if_neg (by omega)]
  rfl

theorem getOp2_of_gt {opcode : UInt8} (h : opPushData4 < opcode) (rest : List UInt8) :
    getOp2 (opcode :: rest) = some (opcode, [], rest) := by
  have hle : ¬opcode ≤ opPushData4 := by
    simp only [UInt8.le_iff_toNat_le, UInt8.lt_iff_toNat_lt] at h ⊢
    omega
  simp [getOp2, hle]

theorem checkMinimalPush_of_gt {opcode : UInt8} (h : opPushData4 < opcode) (data : List UInt8) :
    checkMinimalPush data opcode = true := by
  simp [checkMinimalPush, h]

/-- The push opcode of a small number, and the number it pushes. -/
theorem smallNumber_opcode : ∀ x : UInt8, 1 ≤ x → x ≤ 16 →
    opPushData4 < op1 - 1 + x ∧ op1 ≤ op1 - 1 + x ∧ op1 - 1 + x ≤ op16 ∧
      (op1 - 1 + x).toNat = 0x50 + x.toNat := by
  intro x h1 h16
  rw [UInt8.le_iff_toNat_le] at h1 h16
  change 1 ≤ x.toNat at h1
  change x.toNat ≤ 16 at h16
  have hval : (op1 - 1 + x).toNat = 0x50 + x.toNat := by
    rw [UInt8.toNat_add, show (op1 - 1).toNat = 0x50 from rfl]
    exact Nat.mod_eq_of_lt (by omega)
  have hops : opPushData4.toNat = 0x4e ∧ op1.toNat = 0x51 ∧ op16.toNat = 0x60 := ⟨rfl, rfl, rfl⟩
  simp only [UInt8.lt_iff_toNat_lt, UInt8.le_iff_toNat_le, hval, hops]
  exact ⟨by omega, by omega, by omega, trivial⟩

/-- The push encoder and `GetOp2` are inverse: reading `P << b` from the end
of `P` gives one operation that ends the script, whose data is `b` or, for the
one-opcode forms, whose opcode pushes `b`; and the push is minimal. -/
theorem pushVector_getOp2 (P b : List UInt8) (hb : b.length < 2 ^ 32) :
    ∃ opcode d, getOp2 ((P ++ pushVector b).drop P.length) = some (opcode, d, []) ∧
      (d = b ∨ d = [] ∧ (opcode = op1Negate ∨ op1 ≤ opcode ∧ opcode ≤ op16) ∧
        serialize ((opcode.toNat : Int) - ((op1.toNat : Int) - 1)) = b) ∧
      checkMinimalPush d opcode = true := by
  rw [List.drop_left]
  unfold pushVector
  split_ifs with h0 hsmall hneg
  · obtain rfl := List.eq_nil_of_length_eq_zero h0
    exact ⟨op0, [], rfl, Or.inl rfl, rfl⟩
  · obtain ⟨x, rfl⟩ := List.length_eq_one_iff.mp hsmall.1
    have hx : 1 ≤ x ∧ x ≤ 16 := by simpa using hsmall.2
    obtain ⟨hgt, hlo, hhi, hop⟩ := smallNumber_opcode x hx.1 hx.2
    refine ⟨op1 - 1 + x, [], getOp2_of_gt hgt [], Or.inr ⟨rfl, Or.inr ⟨hlo, hhi⟩, ?_⟩,
      checkMinimalPush_of_gt hgt []⟩
    have hxn : 1 ≤ x.toNat ∧ x.toNat ≤ 16 := by simpa [UInt8.le_iff_toNat_le] using hx
    have hval : ((op1 - 1 + x).toNat : Int) - ((op1.toNat : Int) - 1) = signedValue false x.toNat := by
      rw [hop]
      simp [signedValue, op1]
    rw [hval, serialize_signedValue_of_lt false (by omega) (by omega)]
    simp
  · obtain ⟨x, rfl⟩ := List.length_eq_one_iff.mp hneg.1
    have hx : x = 0x81 := by simpa using hneg.2
    subst hx
    refine ⟨op1Negate, [], getOp2_of_gt (by decide) [], Or.inr ⟨rfl, Or.inl rfl, ?_⟩,
      checkMinimalPush_of_gt (by decide) []⟩
    have hval : ((op1Negate.toNat : Int) - ((op1.toNat : Int) - 1)) = signedValue true 1 := rfl
    rw [hval, serialize_signedValue_of_lt true one_ne_zero (by decide)]
    rfl
  · obtain ⟨opcode, hget, hmin⟩ := getOp2_serializeVector hb [] (fun h => h0 (by simp [h])) hsmall hneg
    rw [List.append_nil] at hget
    exact ⟨opcode, b, hget, Or.inl rfl, hmin⟩

theorem pushVector_getOp2_threeBytes :
    ∃ opcode d, getOp2 (([op1] ++ pushVector [1, 2, 3]).drop [op1].length) = some (opcode, d, []) ∧
      (d = [1, 2, 3] ∨ d = [] ∧ (opcode = op1Negate ∨ op1 ≤ opcode ∧ opcode ≤ op16) ∧
        serialize ((opcode.toNat : Int) - ((op1.toNat : Int) - 1)) = [1, 2, 3]) ∧
      checkMinimalPush d opcode = true :=
  pushVector_getOp2 [op1] [1, 2, 3] (by decide)

end Membercoin
