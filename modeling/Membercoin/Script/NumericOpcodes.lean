import Membercoin.Script.Run

/-!
# The numeric opcodes

`OP_1ADD` ... `OP_0NOTEQUAL`, `OP_ADD` ... `OP_MAX` and `OP_WITHIN` read their
operands with the `CScriptNum` constructor, which refuses more than four
bytes. A number of at most four bytes is below `2^31` in magnitude
(`setVch_natAbs_lt`), so none of the guarded `CScriptNum` operations can
reach its `assert`, no result leaves the `int64_t` range, and the only
division by zero is the one that `Step` reports itself. Each opcode then
pushes the serialization of the exact integer result, with division and
remainder truncating as in C++ (`UnaryNumOp.exact`, `BinaryNumOp.exact`).
These are stated of `Step` itself: a step at an executed numeric opcode
counts it and runs its case of the `switch` (`ScriptMachine.step_of_opcode`),
and the results never add an element, so the size check that ends the step
passes.
-/

namespace Membercoin

open CScriptNum

/-- A fault that `Step` reports through `set_error`, as opposed to a failed
`assert`, undefined behaviour or a read past the end of a buffer. -/
def Fault.isScriptError : Fault → Bool
  | .scriptError _ => true
  | _ => false

/-! ## Exact results -/

/-- What `OP_1ADD` ... `OP_0NOTEQUAL` compute, on unbounded integers. -/
def UnaryNumOp.exact : UnaryNumOp → Int → Int
  | .add1, a => a + 1
  | .sub1, a => a - 1
  | .negate, a => -a
  | .abs, a => |a|
  | .not, a => if a = 0 then 1 else 0
  | .zeroNotEqual, a => if a = 0 then 0 else 1

/-- What `OP_ADD` ... `OP_MAX` compute, on unbounded integers; division and
remainder truncate toward zero as in C++. -/
def BinaryNumOp.exact : BinaryNumOp → Int → Int → Int
  | .add, a, b => a + b
  | .sub, a, b => a - b
  | .div, a, b => a.tdiv b
  | .mod, a, b => a.tmod b
  | .boolAnd, a, b => if a ≠ 0 ∧ b ≠ 0 then 1 else 0
  | .boolOr, a, b => if a ≠ 0 ∨ b ≠ 0 then 1 else 0
  | .numEqual, a, b => if a = b then 1 else 0
  | .numEqualVerify, a, b => if a = b then 1 else 0
  | .numNotEqual, a, b => if a ≠ b then 1 else 0
  | .lessThan, a, b => if a < b then 1 else 0
  | .greaterThan, a, b => if a > b then 1 else 0
  | .lessThanOrEqual, a, b => if a ≤ b then 1 else 0
  | .greaterThanOrEqual, a, b => if a ≥ b then 1 else 0
  | .min, a, b => Min.min a b
  | .max, a, b => Max.max a b

/-- `OP_DIV` and `OP_MOD`, which fail on a zero divisor. -/
def BinaryNumOp.dividesBy : BinaryNumOp → Bool
  | .div | .mod => true
  | _ => false

/-- An operand that the numeric opcodes accept: at most four bytes, and
minimally encoded under `SCRIPT_VERIFY_MINIMALDATA`. -/
def NumOperand (flags : UInt32) (vch : List UInt8) : Prop :=
  vch.length ≤ maximumElementSize ∧
    (hasFlag flags scriptVerifyMinimalData = true → isMinimallyEncoded vch maximumElementSize = true)

instance (flags : UInt32) (vch : List UInt8) : Decidable (NumOperand flags vch) :=
  inferInstanceAs (Decidable (_ ∧ _))

/-! ## Decoding -/

/-- The top bit of a byte, `0x80` when the byte is at least `0x80` and `0`
below. -/
theorem toNat_and_0x80 : ∀ b : UInt8, (b &&& 0x80).toNat = if 128 ≤ b.toNat then 128 else 0 := by
  intro b
  have hlt := b.toNat_lt
  rw [UInt8.toNat_and, show (0x80 : UInt8).toNat = 2 ^ 7 from rfl, Nat.and_two_pow,
    Nat.testBit_eq_decide_div_mod_eq]
  split_ifs with h
  · rw [decide_eq_true (by omega)]
    rfl
  · rw [decide_eq_false (by omega)]
    rfl

/-- The top bit of a byte is set exactly when the byte is at least `0x80`. -/
theorem and_0x80_ne_zero_iff : ∀ b : UInt8, b &&& 0x80 ≠ 0 ↔ 128 ≤ b.toNat := by
  intro b
  rw [Ne, ← UInt8.toNat_inj, toNat_and_0x80, UInt8.toNat_zero]
  split_ifs with h
  · exact iff_of_true (by decide) h
  · exact iff_of_false (fun h0 => h0 rfl) h

theorem littleEndianValue_lt (vch : List UInt8) : littleEndianValue vch < 256 ^ vch.length := by
  have hdigits : ∀ x ∈ vch.map UInt8.toNat, x < 256 := by
    intro x hx
    obtain ⟨b, -, rfl⟩ := List.mem_map.mp hx
    exact b.toNat_lt
  have hlt := Nat.ofDigits_lt_base_pow_length (by decide) hdigits
  rwa [List.length_map] at hlt

theorem littleEndianValue_append_singleton (init : List UInt8) (last : UInt8) :
    littleEndianValue (init ++ [last]) =
      littleEndianValue init + 256 ^ init.length * last.toNat := by
  simp [littleEndianValue, Nat.ofDigits_append]

/-- `set_vch` of `n` bytes is below `2^(8n - 1)` in magnitude: the top bit of
the last byte is the sign, the rest the magnitude. -/
theorem setVch_natAbs_lt (vch : List UInt8) :
    (setVch vch).natAbs < 128 * 256 ^ (vch.length - 1) := by
  rcases List.eq_nil_or_concat vch with rfl | ⟨init, last, rfl⟩
  · simp [setVch]
  rw [List.concat_eq_append]
  have hinit := littleEndianValue_lt init
  have hvalue := littleEndianValue_append_singleton init last
  have hlen : (init ++ [last]).length - 1 = init.length := by simp
  have hlast : (init ++ [last]).getLast! = last := by simp
  have hbyte := last.toNat_lt
  unfold setVch
  rw [if_neg (by simp), hlen, hlast, hvalue]
  dsimp only
  split_ifs with hsign
  · have h128 := (and_0x80_ne_zero_iff last).mp hsign
    have hmul : 256 ^ init.length * last.toNat ≤ 256 ^ init.length * 255 :=
      Nat.mul_le_mul_left _ (by omega)
    rw [Int.natAbs_neg, Int.natAbs_natCast]
    omega
  · have h128 : last.toNat < 128 := by
      by_contra hge
      exact hsign ((and_0x80_ne_zero_iff last).mpr (by omega))
    have hmul : 256 ^ init.length * last.toNat ≤ 256 ^ init.length * 127 :=
      Nat.mul_le_mul_left _ (by omega)
    rw [Int.natAbs_natCast]
    omega

theorem setVch_natAbs_lt_of_length_le {vch : List UInt8} {n : Nat} (h : vch.length ≤ n) :
    (setVch vch).natAbs < 128 * 256 ^ (n - 1) := by
  have hpow : 256 ^ (vch.length - 1) ≤ 256 ^ (n - 1) :=
    Nat.pow_le_pow_right (by decide) (by omega)
  have := setVch_natAbs_lt vch
  omega

theorem ofInt_eq_ok {v : Int} (h : v.natAbs < 2 ^ 63) :
    ∃ r, ofInt v = .ok r ∧ r.value = v := by
  have hrange : IsInt64 v := by
    unfold IsInt64 int64Min int64Max
    omega
  exact ⟨⟨v, hrange⟩, by simp [ofInt, hrange], rfl⟩

/-- The constructor from bytes reads at most eight bytes, so the value always
fits an `int64_t`: it fails only with the script errors for a long or a
non-minimal operand. -/
theorem ofVch_errorsIn {vch : List UInt8} {fRequireMinimal : Bool} {n : Nat} (hn : n ≤ 8) :
    (ofVch vch fRequireMinimal n).ErrorsIn (·.isScriptError) := by
  unfold ofVch
  refine .ite (fun _ => .throw rfl) fun hlen => .ite (fun _ => .throw rfl) fun _ => ?_
  have habs := setVch_natAbs_lt_of_length_le (not_lt.mp hlen)
  have hpow : 128 * 256 ^ (n - 1) ≤ 2 ^ 63 := by
    calc 128 * 256 ^ (n - 1)
        ≤ 128 * 256 ^ 7 := Nat.mul_le_mul_left _ (Nat.pow_le_pow_right (by decide) (by omega))
      _ = 2 ^ 63 := by norm_num
  obtain ⟨r, hr, -⟩ := ofInt_eq_ok (v := setVch vch) (by omega)
  rw [hr]
  exact .ok r

/-- An operand the numeric opcodes accept decodes to its `set_vch` value,
which lies strictly inside `±2^31`. -/
theorem ofVch_of_numOperand {flags : UInt32} {vch : List UInt8} (h : NumOperand flags vch) :
    ∃ bn, ofVch vch (hasFlag flags scriptVerifyMinimalData) 4 = .ok bn ∧
      bn.value = setVch vch ∧ bn.value.natAbs < 2 ^ 31 := by
  obtain ⟨hlen, hmin⟩ := h
  simp only [maximumElementSize] at hlen hmin
  have habs : (setVch vch).natAbs < 2 ^ 31 := by
    have := setVch_natAbs_lt_of_length_le hlen
    simpa using this
  obtain ⟨r, hr, hval⟩ := ofInt_eq_ok (v := setVch vch) (by omega)
  refine ⟨r, ?_, hval, hval ▸ habs⟩
  unfold ofVch
  rw [if_neg (by omega), if_neg (by simpa using hmin), hr]

/-- Whatever an operand, decoding it within the numeric opcodes gives a value
below `2^31` in magnitude. -/
theorem ofVch_natAbs_lt {vch : List UInt8} {fRequireMinimal : Bool} {bn : CScriptNum}
    (h : ofVch vch fRequireMinimal 4 = .ok bn) : bn.value.natAbs < 2 ^ 31 := by
  unfold ofVch at h
  split_ifs at h with hlen
  unfold ofInt at h
  split_ifs at h with hrange
  obtain rfl := Except.pure_eq_ok_iff.1 h
  have := setVch_natAbs_lt_of_length_le (not_lt.mp hlen)
  simpa using this

/-! ## Arithmetic -/

section arithmetic

variable {bn bn1 bn2 : CScriptNum}

/-- On operands below `2^31` the unary operations pass their `assert`s and
stay in range: each gives the exact result. -/
theorem unaryNumOp_eq_ok (op : UnaryNumOp) (h : bn.value.natAbs < 2 ^ 31) :
    ∃ r, unaryNumOp op bn = .ok r ∧ r.value = op.exact bn.value := by
  have hmax : int64Max = 2 ^ 63 - 1 := rfl
  have hmin : int64Min = -2 ^ 63 := rfl
  cases op with
  | add1 =>
    simp only [unaryNumOp]
    unfold addAssign
    split_ifs with hguard
    · exact ofInt_eq_ok (by omega)
    · omega
  | sub1 =>
    simp only [unaryNumOp]
    unfold subAssign
    split_ifs with hguard
    · exact ofInt_eq_ok (by omega)
    · omega
  | negate =>
    have hguard : bn.value ≠ int64Min := by omega
    simp only [unaryNumOp, neg, if_pos hguard]
    exact ofInt_eq_ok (by omega)
  | abs =>
    have hguard : bn.value ≠ int64Min := by omega
    by_cases hneg : bn.value < 0
    · simp only [unaryNumOp, neg, if_pos hneg, if_pos hguard, UnaryNumOp.exact,
        abs_of_neg hneg]
      exact ofInt_eq_ok (by omega)
    · simp only [unaryNumOp, if_neg hneg, UnaryNumOp.exact, abs_of_nonneg (not_lt.mp hneg)]
      exact ⟨bn, rfl, rfl⟩
  | not => exact ⟨_, rfl, by simp [ofBool, UnaryNumOp.exact]⟩
  | zeroNotEqual => exact ⟨_, rfl, by by_cases h0 : bn.value = 0 <;> simp [ofBool, UnaryNumOp.exact, h0]⟩

/-- On operands below `2^31` the binary operations stay in range and give the
exact result, once a zero divisor of `OP_DIV` or `OP_MOD` is excluded. -/
theorem binaryNumOp_eq_ok (op : BinaryNumOp) (h1 : bn1.value.natAbs < 2 ^ 31)
    (h2 : bn2.value.natAbs < 2 ^ 31) (hdiv : op.dividesBy = true → bn2.value ≠ 0) :
    ∃ r, binaryNumOp op bn1 bn2 = .ok r ∧ r.value = op.exact bn1.value bn2.value := by
  cases op with
  | add => exact ofInt_eq_ok (by omega)
  | sub => exact ofInt_eq_ok (by omega)
  | div =>
    have hz := hdiv rfl
    have hq := Int.natAbs_tdiv_le_natAbs bn1.value bn2.value
    simp only [binaryNumOp, CScriptNum.div, if_neg hz]
    exact ofInt_eq_ok (by omega)
  | mod =>
    have hz := hdiv rfl
    have hr : (bn1.value.tmod bn2.value).natAbs ≤ bn1.value.natAbs := by
      rw [Int.natAbs_tmod]
      exact Nat.mod_le _ _
    simp only [binaryNumOp, CScriptNum.mod, if_neg hz]
    exact ofInt_eq_ok (by omega)
  | min =>
    by_cases hlt : bn1.value < bn2.value
    · exact ⟨bn1, by simp [binaryNumOp, hlt], by simp [BinaryNumOp.exact, hlt.le]⟩
    · exact ⟨bn2, by simp [binaryNumOp, hlt], by simp [BinaryNumOp.exact]; omega⟩
  | max =>
    by_cases hgt : bn1.value > bn2.value
    · exact ⟨bn1, by simp [binaryNumOp, hgt], by simp [BinaryNumOp.exact, hgt.le]⟩
    · exact ⟨bn2, by simp [binaryNumOp, hgt], by simp [BinaryNumOp.exact]; omega⟩
  | _ => exact ⟨_, rfl, by simp [ofBool, BinaryNumOp.exact]⟩

/-- `OP_DIV` and `OP_MOD` refuse a zero divisor with their own script error,
before the undefined C++ division. -/
theorem binaryNumOp_divisor_zero {op : BinaryNumOp} (hop : op.dividesBy = true)
    (hz : bn2.value = 0) : ∃ err, binaryNumOp op bn1 bn2 = .error (.scriptError err) := by
  cases op <;> simp [BinaryNumOp.dividesBy] at hop
  · exact ⟨.divByZero, by simp [binaryNumOp, hz]; rfl⟩
  · exact ⟨.modByZero, by simp [binaryNumOp, hz]; rfl⟩

theorem binaryNumOp_errorsIn (op : BinaryNumOp) (h1 : bn1.value.natAbs < 2 ^ 31)
    (h2 : bn2.value.natAbs < 2 ^ 31) : (binaryNumOp op bn1 bn2).ErrorsIn (·.isScriptError) := by
  by_cases hzero : op.dividesBy = true ∧ bn2.value = 0
  · obtain ⟨err, herr⟩ := binaryNumOp_divisor_zero hzero.1 hzero.2
    rw [herr]
    intro e he
    cases he
    rfl
  · obtain ⟨r, hr, -⟩ := binaryNumOp_eq_ok op h1 h2 fun hop hz => hzero ⟨hop, hz⟩
    rw [hr]
    exact .ok r

end arithmetic

/-! ## The opcodes -/

section opcodes

variable {flags : UInt32} {st : ScriptState}

theorem execUnaryNum_errorsIn (op : UnaryNumOp) :
    (execUnaryNum flags op st).ErrorsIn (·.isScriptError) := by
  unfold execUnaryNum
  split
  · refine .bind (ofVch_errorsIn (by decide)) fun bn hbn => ?_
    obtain ⟨r, hr, -⟩ := unaryNumOp_eq_ok op (ofVch_natAbs_lt hbn)
    rw [hr]
    exact .bind (.ok r) fun _ _ => .pure _
  · exact .throw rfl

theorem execBinaryNum_errorsIn (op : BinaryNumOp) :
    (execBinaryNum flags op st).ErrorsIn (·.isScriptError) := by
  unfold execBinaryNum
  split
  · dsimp only
    refine .bind (ofVch_errorsIn (by decide)) fun bn1 h1 => ?_
    refine .bind (ofVch_errorsIn (by decide)) fun bn2 h2 => ?_
    refine .bind (binaryNumOp_errorsIn op (ofVch_natAbs_lt h1) (ofVch_natAbs_lt h2)) fun bn _ => ?_
    exact .ite (fun _ => .ite (fun _ => .pure _) fun _ => .throw rfl) fun _ => .pure _
  · exact .throw rfl

theorem execWithin_errorsIn : (execWithin flags st).ErrorsIn (·.isScriptError) := by
  unfold execWithin
  split
  · dsimp only
    refine .bind (ofVch_errorsIn (by decide)) fun _ _ => ?_
    refine .bind (ofVch_errorsIn (by decide)) fun _ _ => ?_
    exact .bind (ofVch_errorsIn (by decide)) fun _ _ => .pure _
  · exact .throw rfl

variable {rest : List (List UInt8)}

/-- A unary numeric opcode on an operand it accepts pushes the exact result. -/
theorem execUnaryNum_exact {op : UnaryNumOp} {x : List UInt8} (hstack : st.stack = x :: rest)
    (hx : NumOperand flags x) :
    execUnaryNum flags op st = .ok { st with stack := serialize (op.exact (setVch x)) :: rest } := by
  obtain ⟨bn, hbn, hval, habs⟩ := ofVch_of_numOperand hx
  obtain ⟨r, hr, hrval⟩ := unaryNumOp_eq_ok op habs
  unfold execUnaryNum
  simp [hstack, hbn, hr, getvch, hrval, hval]

theorem castToBool_getvch_ofBool (b : Bool) : castToBool (ofBool b).getvch = b := by
  cases b <;> decide

/-- A binary numeric opcode other than `OP_NUMEQUALVERIFY`, on operands it
accepts and with a non-zero divisor for `OP_DIV` and `OP_MOD`, pushes the
exact result. -/
theorem execBinaryNum_exact {op : BinaryNumOp} {x1 x2 : List UInt8}
    (hstack : st.stack = x2 :: x1 :: rest) (hx1 : NumOperand flags x1) (hx2 : NumOperand flags x2)
    (hop : op ≠ .numEqualVerify) (hdiv : op.dividesBy = true → setVch x2 ≠ 0) :
    execBinaryNum flags op st =
      .ok { st with stack := serialize (op.exact (setVch x1) (setVch x2)) :: rest } := by
  obtain ⟨bn1, hbn1, hval1, habs1⟩ := ofVch_of_numOperand hx1
  obtain ⟨bn2, hbn2, hval2, habs2⟩ := ofVch_of_numOperand hx2
  obtain ⟨r, hr, hrval⟩ := binaryNumOp_eq_ok op habs1 habs2 (hval2 ▸ hdiv)
  unfold execBinaryNum
  simp [hstack, hbn1, hbn2, hr, hop, getvch, hrval, hval1, hval2]

/-- `OP_NUMEQUALVERIFY` on operands it accepts pops both when they are equal
and fails otherwise. -/
theorem execBinaryNum_numEqualVerify {x1 x2 : List UInt8} (hstack : st.stack = x2 :: x1 :: rest)
    (hx1 : NumOperand flags x1) (hx2 : NumOperand flags x2) :
    execBinaryNum flags .numEqualVerify st =
      if setVch x1 = setVch x2 then .ok { st with stack := rest }
      else .error (.scriptError .numEqualVerify) := by
  obtain ⟨bn1, hbn1, hval1, -⟩ := ofVch_of_numOperand hx1
  obtain ⟨bn2, hbn2, hval2, -⟩ := ofVch_of_numOperand hx2
  unfold execBinaryNum
  by_cases heq : setVch x1 = setVch x2
  · simp [hstack, hbn1, hbn2, binaryNumOp, heq, hval1, hval2, castToBool_getvch_ofBool]
  · simp [hstack, hbn1, hbn2, binaryNumOp, heq, hval1, hval2, castToBool_getvch_ofBool]
    rfl

theorem serialize_zero : serialize 0 = vchFalse := by decide

theorem serialize_one : serialize 1 = vchTrue := by decide

/-- `OP_WITHIN` on operands it accepts pushes whether `min <= x < max`. -/
theorem execWithin_exact {x1 x2 x3 : List UInt8} (hstack : st.stack = x3 :: x2 :: x1 :: rest)
    (hx1 : NumOperand flags x1) (hx2 : NumOperand flags x2) (hx3 : NumOperand flags x3) :
    execWithin flags st =
      .ok { st with
        stack := serialize (if setVch x2 ≤ setVch x1 ∧ setVch x1 < setVch x3 then 1 else 0) :: rest } := by
  obtain ⟨bn1, hbn1, hval1, -⟩ := ofVch_of_numOperand hx1
  obtain ⟨bn2, hbn2, hval2, -⟩ := ofVch_of_numOperand hx2
  obtain ⟨bn3, hbn3, hval3, -⟩ := ofVch_of_numOperand hx3
  unfold execWithin
  by_cases hin : setVch x2 ≤ setVch x1 ∧ setVch x1 < setVch x3
  · simp [hstack, hbn1, hbn2, hbn3, hval1, hval2, hval3, hin, serialize_one]
  · simp [hstack, hbn1, hbn2, hbn3, hval1, hval2, hval3, hin, serialize_zero]

end opcodes

/-! ## Steps of numeric opcodes -/

/-- The cases of the `switch` that compute on script numbers. -/
def OpcodeCase.isNumeric : OpcodeCase → Bool
  | .unaryNum _ | .binaryNum _ | .within => true
  | _ => false

variable {crypto : CryptoFunctions} {checker : BaseSignatureChecker}

theorem execOpcode_errorsIn_of_isNumeric {flags : UInt32} {maxOps : Nat} {fExec : Bool}
    {pc : List UInt8} {c : OpcodeCase} (hc : c.isNumeric = true) (st : ScriptState) :
    (execOpcode crypto checker flags maxOps fExec pc c st).ErrorsIn (·.isScriptError) := by
  cases c with
  | unaryNum op => exact execUnaryNum_errorsIn op
  | binaryNum op => exact execBinaryNum_errorsIn op
  | within => exact execWithin_errorsIn
  | _ => cases hc

/-- A step that reads a numeric opcode fails, if at all, with a script error:
never with a failed `assert` or undefined behaviour. -/
theorem ScriptMachine.step_errorsIn_of_isNumeric {sm : ScriptMachine} {opcode : UInt8}
    {vchPushValue pc : List UInt8} (hop : getOp2 sm.pc = some (opcode, vchPushValue, pc))
    (hnum : (decodeOpcodeCase opcode).isNumeric = true) :
    (sm.step crypto checker).ErrorsIn (·.isScriptError) := by
  refine ScriptMachine.step_errorsIn (fun _ => rfl) fun opcode' _ _ hop' st => ?_
  obtain ⟨rfl, -⟩ := Prod.mk.inj (Option.some.inj (hop.symm.trans hop'))
  exact execOpcode_errorsIn_of_isNumeric hnum st

/-- The numeric opcodes lie above `OP_16`, and none of them is disabled. -/
theorem op16_lt_of_isNumeric : ∀ opcode : UInt8, (decodeOpcodeCase opcode).isNumeric = true →
    op16 < opcode ∧ isOpcodeDisabled opcode 0 = false := by
  decide +kernel

/-- `sm` is about to run the operation `opcode`, with `pc` after it, in an
executed branch, with room for one more counted operation and with stacks
within `MAX_STACK_SIZE`. -/
structure ScriptMachine.AtExecutedOpcode (sm : ScriptMachine) (opcode : UInt8)
    (pc : List UInt8) : Prop where
  getOp : ∃ vchPushValue, getOp2 sm.pc = some (opcode, vchPushValue, pc)
  executed : sm.state.vfExec.allTrue = true
  count_lt : sm.state.nOpCount < sm.maxOps
  size_le : sm.state.stack.length + sm.state.altstack.length ≤ maxStackSize

/-- The machine after a counted opcode that left `stack`, with `pc` after the
opcode. -/
def ScriptMachine.afterOpcode (sm : ScriptMachine) (pc : List UInt8)
    (stack : List (List UInt8)) : ScriptMachine :=
  { sm with pc := pc, state := { sm.state with nOpCount := sm.state.nOpCount + 1, stack := stack } }

section steps

variable {sm : ScriptMachine} {opcode : UInt8} {pc : List UInt8}

/-- A step at an executed numeric opcode runs that opcode's case of the
`switch` on the counted state; it fails with the error of a case that fails. -/
theorem ScriptMachine.step_of_isNumeric_error {c : OpcodeCase} {e : Fault}
    (hat : sm.AtExecutedOpcode opcode pc) (hcase : decodeOpcodeCase opcode = c)
    (hnum : c.isNumeric = true)
    (hexec : execOpcode crypto checker sm.flags sm.maxOps true pc c
      { sm.state with nOpCount := sm.state.nOpCount + 1 } = .error e) :
    sm.step crypto checker = .error e := by
  obtain ⟨vchPushValue, hop⟩ := hat.getOp
  obtain ⟨hgt, hen⟩ := op16_lt_of_isNumeric opcode (hcase ▸ hnum)
  rw [ScriptMachine.step_of_opcode hop hgt hen hat.executed hat.count_lt, hcase, hexec]
  rfl

/-- A step at an executed numeric opcode whose case of the `switch` leaves
no more elements than it found ends with what that case left. -/
theorem ScriptMachine.step_of_isNumeric {c : OpcodeCase} {stack : List (List UInt8)}
    (hat : sm.AtExecutedOpcode opcode pc) (hcase : decodeOpcodeCase opcode = c)
    (hnum : c.isNumeric = true)
    (hexec : execOpcode crypto checker sm.flags sm.maxOps true pc c
      { sm.state with nOpCount := sm.state.nOpCount + 1 } =
        .ok { sm.state with nOpCount := sm.state.nOpCount + 1, stack := stack })
    (hshort : stack.length ≤ sm.state.stack.length) :
    sm.step crypto checker = .ok (sm.afterOpcode pc stack) := by
  obtain ⟨vchPushValue, hop⟩ := hat.getOp
  obtain ⟨hgt, hen⟩ := op16_lt_of_isNumeric opcode (hcase ▸ hnum)
  rw [ScriptMachine.step_of_opcode hop hgt hen hat.executed hat.count_lt, hcase, hexec,
    Except.ok_bind, if_neg (by have := hat.size_le; dsimp only; omega)]
  rfl

variable {rest : List (List UInt8)}

/-- A step at `OP_1ADD` ... `OP_0NOTEQUAL` on an operand it accepts pushes
the exact result in place of the operand. -/
theorem ScriptMachine.step_unaryNum {op : UnaryNumOp} {x : List UInt8}
    (hat : sm.AtExecutedOpcode opcode pc) (hcase : decodeOpcodeCase opcode = .unaryNum op)
    (hstack : sm.state.stack = x :: rest) (hx : NumOperand sm.flags x) :
    sm.step crypto checker =
      .ok (sm.afterOpcode pc (serialize (op.exact (setVch x)) :: rest)) :=
  ScriptMachine.step_of_isNumeric hat hcase rfl (execUnaryNum_exact hstack hx)
    (by simp only [hstack, List.length_cons]; omega)

/-- A step at `OP_ADD` ... `OP_MAX` other than `OP_NUMEQUALVERIFY`, on
operands it accepts and with a non-zero divisor for `OP_DIV` and `OP_MOD`,
pushes the exact result in place of the operands. -/
theorem ScriptMachine.step_binaryNum {op : BinaryNumOp} {x1 x2 : List UInt8}
    (hat : sm.AtExecutedOpcode opcode pc) (hcase : decodeOpcodeCase opcode = .binaryNum op)
    (hstack : sm.state.stack = x2 :: x1 :: rest) (hx1 : NumOperand sm.flags x1)
    (hx2 : NumOperand sm.flags x2) (hop : op ≠ .numEqualVerify)
    (hdiv : op.dividesBy = true → setVch x2 ≠ 0) :
    sm.step crypto checker =
      .ok (sm.afterOpcode pc (serialize (op.exact (setVch x1) (setVch x2)) :: rest)) :=
  ScriptMachine.step_of_isNumeric hat hcase rfl (execBinaryNum_exact hstack hx1 hx2 hop hdiv)
    (by simp only [hstack, List.length_cons]; omega)

/-- A step at `OP_NUMEQUALVERIFY` on operands it accepts pops both when they
are equal and fails otherwise. -/
theorem ScriptMachine.step_numEqualVerify {x1 x2 : List UInt8}
    (hat : sm.AtExecutedOpcode opcode pc)
    (hcase : decodeOpcodeCase opcode = .binaryNum .numEqualVerify)
    (hstack : sm.state.stack = x2 :: x1 :: rest) (hx1 : NumOperand sm.flags x1)
    (hx2 : NumOperand sm.flags x2) :
    sm.step crypto checker =
      if setVch x1 = setVch x2 then .ok (sm.afterOpcode pc rest)
      else .error (.scriptError .numEqualVerify) := by
  have hexact : execBinaryNum sm.flags .numEqualVerify { sm.state with nOpCount := sm.state.nOpCount + 1 } =
      if setVch x1 = setVch x2 then .ok { sm.state with nOpCount := sm.state.nOpCount + 1, stack := rest }
      else .error (.scriptError .numEqualVerify) :=
    execBinaryNum_numEqualVerify hstack hx1 hx2
  by_cases heq : setVch x1 = setVch x2
  · rw [if_pos heq] at hexact ⊢
    exact ScriptMachine.step_of_isNumeric hat hcase rfl hexact
      (by simp only [hstack, List.length_cons]; omega)
  · rw [if_neg heq] at hexact ⊢
    exact ScriptMachine.step_of_isNumeric_error hat hcase rfl hexact

/-- A step at `OP_WITHIN` on operands it accepts pushes whether
`min <= x < max` in place of the operands. -/
theorem ScriptMachine.step_within {x1 x2 x3 : List UInt8}
    (hat : sm.AtExecutedOpcode opcode pc) (hcase : decodeOpcodeCase opcode = .within)
    (hstack : sm.state.stack = x3 :: x2 :: x1 :: rest) (hx1 : NumOperand sm.flags x1)
    (hx2 : NumOperand sm.flags x2) (hx3 : NumOperand sm.flags x3) :
    sm.step crypto checker =
      .ok (sm.afterOpcode pc
        (serialize (if setVch x2 ≤ setVch x1 ∧ setVch x1 < setVch x3 then 1 else 0) :: rest)) :=
  ScriptMachine.step_of_isNumeric hat hcase rfl (execWithin_exact hstack hx1 hx2 hx3)
    (by simp only [hstack, List.length_cons]; omega)

end steps

/-- The numeric opcodes are safe and exact. A step that reads one fails, if at
all, with a script error: no `assert` of `CScriptNum` fails, and no C++
arithmetic overflows or divides by zero. A step that runs one in an executed
branch, on operands of at most four bytes (minimal under
`SCRIPT_VERIFY_MINIMALDATA`), replaces the operands by the serialization of
the exact integer result, with `OP_DIV` and `OP_MOD` truncating toward zero;
`OP_NUMEQUALVERIFY` pops its operands when they are equal and fails
otherwise. -/
theorem numeric_opcodes_safe_and_exact (crypto : CryptoFunctions)
    (checker : BaseSignatureChecker) :
    (∀ (sm : ScriptMachine) (opcode : UInt8) (vchPushValue pc : List UInt8),
      getOp2 sm.pc = some (opcode, vchPushValue, pc) → (decodeOpcodeCase opcode).isNumeric = true →
        (sm.step crypto checker).ErrorsIn (·.isScriptError)) ∧
    (∀ (sm : ScriptMachine) (opcode : UInt8) (pc : List UInt8) (op : UnaryNumOp) (x : List UInt8)
      (rest : List (List UInt8)), sm.AtExecutedOpcode opcode pc →
        decodeOpcodeCase opcode = .unaryNum op → sm.state.stack = x :: rest →
        NumOperand sm.flags x →
        sm.step crypto checker =
          .ok (sm.afterOpcode pc (serialize (op.exact (setVch x)) :: rest))) ∧
    (∀ (sm : ScriptMachine) (opcode : UInt8) (pc : List UInt8) (op : BinaryNumOp)
      (x1 x2 : List UInt8) (rest : List (List UInt8)), sm.AtExecutedOpcode opcode pc →
        decodeOpcodeCase opcode = .binaryNum op → sm.state.stack = x2 :: x1 :: rest →
        NumOperand sm.flags x1 → NumOperand sm.flags x2 → op ≠ .numEqualVerify →
        (op.dividesBy = true → setVch x2 ≠ 0) →
        sm.step crypto checker =
          .ok (sm.afterOpcode pc (serialize (op.exact (setVch x1) (setVch x2)) :: rest))) ∧
    (∀ (sm : ScriptMachine) (opcode : UInt8) (pc : List UInt8) (x1 x2 : List UInt8)
      (rest : List (List UInt8)), sm.AtExecutedOpcode opcode pc →
        decodeOpcodeCase opcode = .binaryNum .numEqualVerify →
        sm.state.stack = x2 :: x1 :: rest → NumOperand sm.flags x1 → NumOperand sm.flags x2 →
        sm.step crypto checker =
          if setVch x1 = setVch x2 then .ok (sm.afterOpcode pc rest)
          else .error (.scriptError .numEqualVerify)) ∧
    (∀ (sm : ScriptMachine) (opcode : UInt8) (pc : List UInt8) (x1 x2 x3 : List UInt8)
      (rest : List (List UInt8)), sm.AtExecutedOpcode opcode pc →
        decodeOpcodeCase opcode = .within → sm.state.stack = x3 :: x2 :: x1 :: rest →
        NumOperand sm.flags x1 → NumOperand sm.flags x2 → NumOperand sm.flags x3 →
        sm.step crypto checker = .ok (sm.afterOpcode pc
          (serialize (if setVch x2 ≤ setVch x1 ∧ setVch x1 < setVch x3 then 1 else 0) :: rest))) :=
  ⟨fun _ _ _ _ hop hnum => ScriptMachine.step_errorsIn_of_isNumeric hop hnum,
    fun _ _ _ _ _ _ hat hcase hstack hx => ScriptMachine.step_unaryNum hat hcase hstack hx,
    fun _ _ _ _ _ _ _ hat hcase hstack hx1 hx2 hop hdiv =>
      ScriptMachine.step_binaryNum hat hcase hstack hx1 hx2 hop hdiv,
    fun _ _ _ _ _ _ hat hcase hstack hx1 hx2 =>
      ScriptMachine.step_numEqualVerify hat hcase hstack hx1 hx2,
    fun _ _ _ _ _ _ _ hat hcase hstack hx1 hx2 hx3 =>
      ScriptMachine.step_within hat hcase hstack hx1 hx2 hx3⟩

/-- The machine about to run `script` on `stack`. -/
def numericSample (script : List UInt8) (stack : List (List UInt8)) : ScriptMachine :=
  ⟨0, 201, script, ⟨stack, [], .init, [], 0, 0, 0⟩⟩

/-- A machine about to run one non-push opcode is at an executed opcode. -/
theorem numericSample_atExecutedOpcode {opcode : UInt8} {stack : List (List UInt8)}
    (hgt : opPushData4 < opcode) (hlen : stack.length ≤ maxStackSize) :
    (numericSample [opcode] stack).AtExecutedOpcode opcode [] := by
  refine ⟨⟨[], ?_⟩, rfl, by simp [numericSample], by simpa [numericSample] using hlen⟩
  simp [numericSample, getOp2, UInt8.not_le.2 hgt]

/-- Steps at `OP_ADD` (which fails only with script errors), `OP_NEGATE` of
`2`, `OP_DIV` of `-7` by `2` (truncating to `-3`), `OP_NUMEQUALVERIFY` of `2`
and `2`, and `OP_WITHIN` of `2` in `[1, 3)`. -/
theorem numeric_opcodes_safe_and_exact_examples :
    Except.ErrorsIn (·.isScriptError)
      ((numericSample [opAdd] [[3], [2]]).step .zeroDigests (.base fun _ _ _ => false)) ∧
    (numericSample [opNegate] [[2]]).step .zeroDigests (.base fun _ _ _ => false) =
      .ok ((numericSample [opNegate] [[2]]).afterOpcode [] [serialize (-2)]) ∧
    (numericSample [opDiv] [[2], [0x87]]).step .zeroDigests (.base fun _ _ _ => false) =
      .ok ((numericSample [opDiv] [[2], [0x87]]).afterOpcode [] [serialize (-3)]) ∧
    (numericSample [opNumEqualVerify] [[2], [2]]).step .zeroDigests (.base fun _ _ _ => false) =
      .ok ((numericSample [opNumEqualVerify] [[2], [2]]).afterOpcode [] []) ∧
    (numericSample [opWithin] [[3], [1], [2]]).step .zeroDigests (.base fun _ _ _ => false) =
      .ok ((numericSample [opWithin] [[3], [1], [2]]).afterOpcode [] [serialize 1]) := by
  obtain ⟨hstep, hunary, hbinary, hverify, hwithin⟩ :=
    numeric_opcodes_safe_and_exact .zeroDigests (.base fun _ _ _ => false)
  refine ⟨hstep _ opAdd [] [] rfl rfl, ?_, ?_, ?_, ?_⟩
  · exact hunary _ opNegate [] .negate [2] []
      (numericSample_atExecutedOpcode (by decide) (by decide)) rfl rfl (by decide)
  · exact hbinary _ opDiv [] .div [0x87] [2] []
      (numericSample_atExecutedOpcode (by decide) (by decide)) rfl rfl (by decide) (by decide)
      (by decide) (by decide)
  · rw [hverify _ opNumEqualVerify [] [2] [2] []
      (numericSample_atExecutedOpcode (by decide) (by decide)) rfl rfl (by decide) (by decide),
      if_pos rfl]
  · exact hwithin _ opWithin [] [2] [1] [3] []
      (numericSample_atExecutedOpcode (by decide) (by decide)) rfl rfl (by decide) (by decide)
      (by decide)

end Membercoin
