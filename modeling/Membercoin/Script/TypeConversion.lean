import Membercoin.Script.ScriptNumCodec

/-!
# `OP_NUM2BIN` and `OP_BIN2NUM`

`OP_NUM2BIN` minimally encodes its operand in place and pads it to the
requested size, moving the sign bit to the new top byte; `OP_BIN2NUM`
minimally encodes its operand and checks that the result is a valid number.
Through `minimallyEncode_eq` both reduce to the `CScriptNum` codec: the padding
keeps the value (`setVch_num2Bin`), so the minimal encoding of the padded
vector is the minimal encoding of the operand.
-/

namespace Membercoin

open CScriptNum

/-! ## Padding -/

theorem littleEndianValue_append_zeros (l : List UInt8) (k : Nat) :
    littleEndianValue (l ++ List.replicate k 0) = littleEndianValue l := by
  simp [littleEndianValue]

/-- Moving the sign bit of the top byte up past zero bytes keeps the value. -/
theorem setVch_moveSign (init : List UInt8) (last : UInt8) (k : Nat) :
    setVch (init ++ [last &&& 0x7f] ++ List.replicate k 0 ++ [last &&& 0x80]) = setVch (init ++ [last]) := by
  have hsign : (last &&& 0x80).toNat % 128 = 0 := by rw [toNat_and_0x80]; split_ifs <;> rfl
  have h128 : decide (128 ≤ (last &&& 0x80).toNat) = decide (128 ≤ last.toNat) := by
    rw [toNat_and_0x80]; split_ifs <;> simp [*]
  rw [setVch_append_singleton, setVch_append_singleton, hsign, h128, littleEndianValue_append_zeros,
    littleEndianValue_append_singleton, toNat_and_0x7f, Nat.mul_zero, Nat.add_zero]

theorem setVch_replicate_zero (k : Nat) : setVch (List.replicate k 0 ++ [0]) = 0 := by
  have hzero : littleEndianValue (List.replicate k 0) = 0 := by
    simp [littleEndianValue]
  simp [setVch_append_singleton, hzero]

/-- `OP_NUM2BIN` keeps the value of its operand. -/
theorem setVch_num2Bin {raw out : List UInt8} {size : Nat} (h : num2Bin raw size = .ok out) :
    setVch out = setVch raw := by
  rw [← setVch_minimallyEncode raw]
  unfold num2Bin at h
  generalize (minimallyEncode raw).2 = r at h ⊢
  dsimp only at h
  split_ifs at h with hgt heq
  · rw [← Except.pure_eq_ok_iff.1 h]
  split at h
  · next hlast =>
    rw [← Except.pure_eq_ok_iff.1 h, List.getLast?_eq_none_iff.mp hlast, setVch_replicate_zero]
    rfl
  · next last hlast =>
    rcases List.eq_nil_or_concat r with rfl | ⟨init, last', rfl⟩
    · simp at hlast
    rw [List.concat_eq_append, List.getLast?_append, List.getLast?_singleton] at hlast
    obtain rfl : last' = last := by simpa using hlast
    rw [← Except.pure_eq_ok_iff.1 h, List.concat_eq_append, List.dropLast_concat, setVch_moveSign]

/-! ## The opcodes -/

theorem num2Bin_eq_ok_of_le {raw : List UInt8} {size : Nat} (h : (minimallyEncode raw).2.length ≤ size) :
    ∃ out, num2Bin raw size = .ok out := by
  unfold num2Bin
  dsimp only
  rw [if_neg (by omega)]
  split_ifs
  · exact ⟨_, rfl⟩
  · split <;> exact ⟨_, rfl⟩

theorem num2Bin_eq_error_iff (raw : List UInt8) (size : Nat) :
    num2Bin raw size = .error (.scriptError .impossibleEncoding) ↔ size < (minimallyEncode raw).2.length := by
  constructor
  · intro h
    by_contra hle
    obtain ⟨out, hout⟩ := num2Bin_eq_ok_of_le (Nat.le_of_not_lt hle)
    rw [hout] at h
    cases h
  · intro h
    unfold num2Bin
    rw [if_pos h]
    rfl

/-- A size operand written by `serialize` reads back as itself. -/
theorem ofVch_serialize {v : Int} (hv : v.natAbs < 2 ^ 31) (fRequireMinimal : Bool) :
    ∃ bn, ofVch (serialize v) fRequireMinimal 4 = .ok bn ∧ bn.value = v := by
  have hlen : (serialize v).length ≤ 4 := length_serialize_le (k := 3) (by omega)
  obtain ⟨bn, hbn, hval⟩ := ofInt_eq_ok (v := v) (by omega)
  refine ⟨bn, ?_, hval⟩
  unfold ofVch
  rw [if_neg (by omega), if_neg (by simp [isMinimallyEncoded_serialize v hlen]), setVch_serialize, hbn]

theorem execNum2Bin_serialize {flags : UInt32} {st : ScriptState} {x : List UInt8}
    {rest : List (List UInt8)} {s : Nat} (hstack : st.stack = serialize s :: x :: rest)
    (hs : s ≤ maxScriptElementSize) :
    execNum2Bin flags st = (num2Bin x s).map fun out => { st with stack := out :: rest } := by
  have h520 : maxScriptElementSize = 520 := rfl
  obtain ⟨bn, hbn, hval⟩ := ofVch_serialize (v := s) (by omega) (hasFlag flags scriptVerifyMinimalData)
  have hsize : toUInt64 bn.getint = s := by
    simp only [toUInt64, getint, hval]
    split_ifs <;> omega
  unfold execNum2Bin
  rw [hstack]
  simp only [hbn, Except.ok_bind, hsize, failIf_of_not (not_lt.mpr hs)]
  rfl

theorem execBin2Num_cons {st : ScriptState} {n : List UInt8} {rest : List (List UInt8)}
    (hstack : st.stack = n :: rest) :
    execBin2Num st = if isMinimallyEncoded (minimallyEncode n).2 4 then
      .ok { st with stack := (minimallyEncode n).2 :: rest }
    else .error (.scriptError .invalidNumberRange) := by
  unfold execBin2Num
  rw [hstack]
  dsimp only
  cases isMinimallyEncoded (minimallyEncode n).2 4 <;> rfl

/-- `OP_BIN2NUM` is idempotent. -/
theorem execBin2Num_idem {st st' : ScriptState} (h : execBin2Num st = .ok st') :
    execBin2Num st' = .ok st' := by
  obtain ⟨n, rest, -, hmin, rfl⟩ := execBin2Num_eq_ok h
  rw [execBin2Num_cons rfl, minimallyEncode_minimallyEncode, if_pos hmin]

/-- `OP_NUM2BIN` to any size that fits the minimal encoding, and at most
`MAX_SCRIPT_ELEMENT_SIZE`, succeeds with a vector of that size and the same
value, which `OP_BIN2NUM` turns back into the minimal encoding when that is
a valid number; `OP_NUM2BIN` reports an impossible encoding exactly for
sizes below the minimal encoding; and `OP_BIN2NUM` is idempotent. -/
theorem num2Bin_bin2Num_roundTrip :
    (∀ (flags : UInt32) (st : ScriptState) (x : List UInt8) (rest : List (List UInt8)) (s : Nat),
      st.stack = serialize s :: x :: rest → (minimallyEncode x).2.length ≤ s → s ≤ maxScriptElementSize →
        ∃ out, execNum2Bin flags st = .ok { st with stack := out :: rest } ∧ out.length = s ∧
          setVch out = setVch x ∧
          ((minimallyEncode x).2.length ≤ 4 →
            execBin2Num { st with stack := out :: rest } =
              .ok { st with stack := (minimallyEncode x).2 :: rest })) ∧
    (∀ (flags : UInt32) (st : ScriptState) (x : List UInt8) (rest : List (List UInt8)) (s : Nat),
      st.stack = serialize s :: x :: rest → s ≤ maxScriptElementSize →
        (execNum2Bin flags st = .error (.scriptError .impossibleEncoding) ↔
          s < (minimallyEncode x).2.length)) ∧
    ∀ st st' : ScriptState, execBin2Num st = .ok st' → execBin2Num st' = .ok st' := by
  refine ⟨fun flags st x rest s hstack hlen hs => ?_, fun flags st x rest s hstack hs => ?_,
    fun _ _ h => execBin2Num_idem h⟩
  · obtain ⟨out, hout⟩ := num2Bin_eq_ok_of_le hlen
    have hval := setVch_num2Bin hout
    refine ⟨out, by rw [execNum2Bin_serialize hstack hs, hout]; rfl, num2Bin_length hout, hval, fun h4 => ?_⟩
    have hme : (minimallyEncode out).2 = (minimallyEncode x).2 := by
      rw [minimallyEncode_snd, minimallyEncode_snd, hval]
    have hmin : isMinimallyEncoded (minimallyEncode x).2 4 = true := by
      rw [minimallyEncode_snd] at h4 ⊢
      exact isMinimallyEncoded_serialize _ h4
    rw [execBin2Num_cons rfl, hme, if_pos hmin]
  · rw [execNum2Bin_serialize hstack hs, ← num2Bin_eq_error_iff]
    cases num2Bin x s <;> simp [Except.map]

end Membercoin
