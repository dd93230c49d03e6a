import Membercoin.Script.Interpreter

/-!
# What each operation of the interpreter changes

Inversion lemmas for the pieces of `Step`: what a successful stack shuffle,
signature opcode or `Step` did to the state. The invariants of the later
modules are proved from these, never by unfolding the interpreter again.
-/

namespace Membercoin

open CScriptNum

variable {crypto : CryptoFunctions} {checker : BaseSignatureChecker} {flags : UInt32}
  {maxOps : Nat} {verify : Bool} {st st' : ScriptState}

/-- What the signature opcodes do to the stacks: pop `k` operands and push
nothing (the `VERIFY` variants) or `vchTrue`/`vchFalse`; the altstack and the
condition stack are kept. -/
def ScriptState.PopsAndPushesResult (st st' : ScriptState) : Prop :=
  st'.altstack = st.altstack ∧ st'.vfExec = st.vfExec ∧
    ∃ k, st'.stack = st.stack.drop k ∨
      ∃ b, (b = vchTrue ∨ b = vchFalse) ∧ st'.stack = b :: st.stack.drop k

theorem stackShuffle_eq_ok {f : List (List UInt8) → Option (List (List UInt8))}
    (h : stackShuffle st f = .ok st') :
    ∃ stack, f st.stack = some stack ∧ st' = { st with stack := stack } := by
  unfold stackShuffle at h
  split at h
  · next stack hf => exact ⟨stack, hf, (Except.pure_eq_ok_iff.1 h).symm⟩
  · exact absurd h Except.throw_ne_ok

theorem pushOrVerify_eq_ok {fSuccess : Bool} {err : ScriptError}
    (h : pushOrVerify verify fSuccess err st = .ok st') :
    st' = st ∨ ∃ b, (b = vchTrue ∨ b = vchFalse) ∧ st' = { st with stack := b :: st.stack } := by
  unfold pushOrVerify at h
  split at h
  · split at h
    · exact .inl (Except.pure_eq_ok_iff.1 h).symm
    · exact absurd h Except.throw_ne_ok
  · refine .inr ⟨_, ?_, (Except.pure_eq_ok_iff.1 h).symm⟩
    cases fSuccess <;> simp

/-- `pushOrVerify` on a state whose stack is `st.stack.drop k`. -/
theorem pushOrVerify_popsAndPushesResult {fSuccess : Bool} {err : ScriptError}
    {st₁ : ScriptState} (h : pushOrVerify verify fSuccess err st₁ = .ok st') (k : Nat)
    (hstack : st₁.stack = st.stack.drop k) (halt : st₁.altstack = st.altstack)
    (hexec : st₁.vfExec = st.vfExec) : st.PopsAndPushesResult st' := by
  rcases pushOrVerify_eq_ok h with rfl | ⟨b, hb, rfl⟩
  · exact ⟨halt, hexec, k, .inl hstack⟩
  · exact ⟨halt, hexec, k, .inr ⟨b, hb, by rw [← hstack]⟩⟩

theorem execCheckSig_popsAndPushesResult
    (h : execCheckSig crypto checker flags verify st = .ok st') : st.PopsAndPushesResult st' := by
  unfold execCheckSig at h
  split at h
  · next vchPubKey vchSig rest hstack =>
    dsimp only at h
    repeat (obtain ⟨_, -, h⟩ := Except.bind_eq_ok_iff.1 h)
    exact pushOrVerify_popsAndPushesResult h 2 (by simp [hstack]) rfl rfl
  · exact absurd h Except.throw_ne_ok

theorem execCheckMultiSig_popsAndPushesResult
    (h : execCheckMultiSig crypto checker flags maxOps verify st = .ok st') :
    st.PopsAndPushesResult st' := by
  unfold execCheckMultiSig at h
  dsimp only at h
  repeat (obtain ⟨_, -, h⟩ := Except.bind_eq_ok_iff.1 h)
  split at h <;> obtain ⟨_, -, h⟩ := Except.bind_eq_ok_iff.1 h <;>
    exact pushOrVerify_popsAndPushesResult h _ rfl rfl rfl

theorem execCheckDataSig_popsAndPushesResult
    (h : execCheckDataSig crypto checker flags verify st = .ok st') :
    st.PopsAndPushesResult st' := by
  unfold execCheckDataSig at h
  split at h
  · next vchPubKey vchMessage vchSig rest hstack =>
    dsimp only at h
    repeat (obtain ⟨_, -, h⟩ := Except.bind_eq_ok_iff.1 h)
    exact pushOrVerify_popsAndPushesResult h 3 (by simp [hstack]) rfl rfl
  · exact absurd h Except.throw_ne_ok

/-! ## Element sizes and the condition stack -/

/-- Every element on the stacks of `st'` is at most as long as some element
on the stacks of `st`, or at most `MAX_SCRIPT_ELEMENT_SIZE` bytes. -/
def ScriptState.ElementsFrom (st st' : ScriptState) : Prop :=
  ∀ v, v ∈ st'.stack ∨ v ∈ st'.altstack →
    (∃ w, (w ∈ st.stack ∨ w ∈ st.altstack) ∧ v.length ≤ w.length) ∨
      v.length ≤ maxScriptElementSize

theorem ScriptState.ElementsFrom.refl (st : ScriptState) : st.ElementsFrom st :=
  fun v hv => .inl ⟨v, hv, le_rfl⟩

/-- An opcode that only rewrites the main stack, with elements no longer than
an old one or the limit. -/
theorem ScriptState.ElementsFrom.of_stack (halt : st'.altstack = st.altstack)
    (hstack : ∀ v ∈ st'.stack,
      (∃ w ∈ st.stack, v.length ≤ w.length) ∨ v.length ≤ maxScriptElementSize) :
    st.ElementsFrom st' := by
  rintro v (hv | hv)
  · rcases hstack v hv with ⟨w, hw, hle⟩ | hle
    · exact .inl ⟨w, .inl hw, hle⟩
    · exact .inr hle
  · exact .inl ⟨v, .inr (halt ▸ hv), le_rfl⟩

/-- An opcode that only rearranges elements of the main stack. -/
theorem ScriptState.ElementsFrom.of_subset (halt : st'.altstack = st.altstack)
    (hstack : ∀ v ∈ st'.stack, v ∈ st.stack) : st.ElementsFrom st' :=
  .of_stack halt fun v hv => .inl ⟨v, hstack v hv, le_rfl⟩

theorem ScriptState.PopsAndPushesResult.elementsFrom (h : st.PopsAndPushesResult st') :
    st.ElementsFrom st' := by
  obtain ⟨halt, -, k, hstack | ⟨b, hb, hstack⟩⟩ := h
  · exact .of_subset halt fun v hv => List.mem_of_mem_drop (hstack ▸ hv)
  · refine .of_stack halt fun v hv => ?_
    rw [hstack, List.mem_cons] at hv
    rcases hv with rfl | hv
    · right
      rcases hb with rfl | rfl <;> simp [vchTrue, vchFalse, maxScriptElementSize]
    · exact .inl ⟨v, List.mem_of_mem_drop hv, le_rfl⟩

/-- What every opcode other than the conditionals does: it keeps the
condition stack, and leaves no element that is longer than both every old
element and `MAX_SCRIPT_ELEMENT_SIZE`. -/
structure ScriptState.OpcodeEffect (st st' : ScriptState) : Prop where
  vfExec_eq : st'.vfExec = st.vfExec
  elementsFrom : st.ElementsFrom st'

theorem ScriptState.OpcodeEffect.refl (st : ScriptState) : st.OpcodeEffect st :=
  ⟨rfl, .refl st⟩

theorem ScriptState.OpcodeEffect.of_stack {stack : List (List UInt8)}
    (hstack : ∀ v ∈ stack,
      (∃ w ∈ st.stack, v.length ≤ w.length) ∨ v.length ≤ maxScriptElementSize) :
    st.OpcodeEffect { st with stack := stack } :=
  ⟨rfl, .of_stack rfl hstack⟩

theorem ScriptState.OpcodeEffect.of_subset {stack : List (List UInt8)}
    (hstack : ∀ v ∈ stack, v ∈ st.stack) : st.OpcodeEffect { st with stack := stack } :=
  ⟨rfl, .of_subset rfl hstack⟩

/-- A new element within the limit on top of old elements. -/
theorem ScriptState.OpcodeEffect.push {stack : List (List UInt8)} {b : List UInt8}
    (hb : b.length ≤ maxScriptElementSize) (hstack : ∀ v ∈ stack, v ∈ st.stack) :
    st.OpcodeEffect { st with stack := b :: stack } := by
  refine .of_stack fun v hv => ?_
  rcases List.mem_cons.mp hv with rfl | hv
  · exact .inr hb
  · exact .inl ⟨v, hstack v hv, le_rfl⟩

/-! ## The cases of the switch

One inversion lemma per case function. The switch itself is never unfolded:
a hypothesis about `execOpcode` on a given case is, by definition, one about
that case's function. -/

/-- `OP_CHECKLOCKTIMEVERIFY` only checks. -/
theorem execCheckLockTimeVerify_eq_ok (h : execCheckLockTimeVerify checker flags st = .ok st') :
    st' = st := by
  unfold execCheckLockTimeVerify at h
  split at h
  · exact (Except.pure_eq_ok_iff.1 h).symm
  · repeat (obtain ⟨_, -, h⟩ := Except.bind_eq_ok_iff.1 h)
    exact (Except.pure_eq_ok_iff.1 h).symm

/-- `OP_CHECKSEQUENCEVERIFY` only checks. -/
theorem execCheckSequenceVerify_eq_ok (h : execCheckSequenceVerify checker flags st = .ok st') :
    st' = st := by
  unfold execCheckSequenceVerify at h
  split at h
  · exact (Except.pure_eq_ok_iff.1 h).symm
  · repeat (obtain ⟨_, -, h⟩ := Except.bind_eq_ok_iff.1 h)
    split at h
    · exact (Except.pure_eq_ok_iff.1 h).symm
    · obtain ⟨_, -, h⟩ := Except.bind_eq_ok_iff.1 h
      exact (Except.pure_eq_ok_iff.1 h).symm

theorem execUpgradableNop_eq_ok (h : execUpgradableNop flags st = .ok st') : st' = st := by
  unfold execUpgradableNop at h
  split at h
  · exact absurd h Except.throw_ne_ok
  · exact (Except.pure_eq_ok_iff.1 h).symm

/-- `OP_IF` and `OP_NOTIF` push a branch flag, and in an executed branch pop
the condition. -/
theorem execIf_eq_ok {fExec notIf : Bool} (h : execIf fExec notIf st = .ok st') :
    ∃ f, st'.vfExec = st.vfExec.pushBack f ∧ st'.altstack = st.altstack ∧
      ∀ v ∈ st'.stack, v ∈ st.stack := by
  unfold execIf at h
  split at h
  · split at h
    · next vch rest hstack =>
      obtain rfl := Except.pure_eq_ok_iff.1 h
      exact ⟨_, rfl, rfl, fun v hv => by simp [hstack, hv]⟩
    · exact absurd h Except.throw_ne_ok
  · obtain rfl := Except.pure_eq_ok_iff.1 h
    exact ⟨false, rfl, rfl, fun v hv => hv⟩

/-- `OP_ELSE` toggles the top of a non-empty condition stack. -/
theorem execElse_eq_ok (h : execElse st = .ok st') :
    st.vfExec.empty = false ∧ st.vfExec.toggleTop = .ok st'.vfExec ∧
      st' = { st with vfExec := st'.vfExec } := by
  unfold execElse at h
  obtain ⟨_, hempty, h⟩ := Except.bind_eq_ok_iff.1 h
  obtain ⟨vfExec, htoggle, h⟩ := Except.bind_eq_ok_iff.1 h
  obtain rfl := Except.pure_eq_ok_iff.1 h
  exact ⟨by simpa using failIf_eq_ok.1 hempty, htoggle, rfl⟩

/-- `OP_ENDIF` pops a non-empty condition stack. -/
theorem execEndIf_eq_ok (h : execEndIf st = .ok st') :
    st.vfExec.empty = false ∧ st.vfExec.popBack = .ok st'.vfExec ∧
      st' = { st with vfExec := st'.vfExec } := by
  unfold execEndIf at h
  obtain ⟨_, hempty, h⟩ := Except.bind_eq_ok_iff.1 h
  obtain ⟨vfExec, hpop, h⟩ := Except.bind_eq_ok_iff.1 h
  obtain rfl := Except.pure_eq_ok_iff.1 h
  exact ⟨by simpa using failIf_eq_ok.1 hempty, hpop, rfl⟩

theorem execVerify_eq_ok (h : execVerify st = .ok st') :
    ∃ vch rest, st.stack = vch :: rest ∧ st' = { st with stack := rest } := by
  unfold execVerify at h
  split at h
  · next vch rest hstack =>
    split at h
    · exact ⟨vch, rest, hstack, (Except.pure_eq_ok_iff.1 h).symm⟩
    · exact absurd h Except.throw_ne_ok
  · exact absurd h Except.throw_ne_ok

theorem execToAltStack_eq_ok (h : execToAltStack st = .ok st') :
    ∃ vch rest, st.stack = vch :: rest ∧
      st' = { st with stack := rest, altstack := vch :: st.altstack } := by
  unfold execToAltStack at h
  split at h
  · next vch rest hstack => exact ⟨vch, rest, hstack, (Except.pure_eq_ok_iff.1 h).symm⟩
  · exact absurd h Except.throw_ne_ok

theorem execFromAltStack_eq_ok (h : execFromAltStack st = .ok st') :
    ∃ vch rest, st.altstack = vch :: rest ∧
      st' = { st with stack := vch :: st.stack, altstack := rest } := by
  unfold execFromAltStack at h
  split at h
  · next vch rest haltstack => exact ⟨vch, rest, haltstack, (Except.pure_eq_ok_iff.1 h).symm⟩
  · exact absurd h Except.throw_ne_ok

/-- A shuffle only copies and reorders elements of the stack. -/
theorem ShuffleOp.mem_of_apply {op : ShuffleOp} {stack stack' : List (List UInt8)}
    (h : op.apply stack = some stack') {v : List UInt8} (hv : v ∈ stack') : v ∈ stack := by
  unfold ShuffleOp.apply at h
  split at h <;> cases h
  all_goals (try split at hv) <;> simp only [List.mem_cons] at hv ⊢ <;> tauto

theorem execPickRoll_eq_ok {roll : Bool} (h : execPickRoll flags roll st = .ok st') :
    ∃ top rest n, st.stack = top :: rest ∧ n < rest.length ∧
      st' = { st with stack := rest.getD n [] :: if roll then rest.eraseIdx n else rest } := by
  unfold execPickRoll at h
  split at h
  · next top x xs hstack =>
    obtain ⟨bn, -, h⟩ := Except.bind_eq_ok_iff.1 h
    obtain ⟨_, hn, h⟩ := Except.bind_eq_ok_iff.1 h
    have hlt := failIf_eq_ok.1 hn
    refine ⟨top, x :: xs, bn.getint.toNat, hstack, by omega, ?_⟩
    exact (Except.pure_eq_ok_iff.1 h).symm
  · exact absurd h Except.throw_ne_ok

theorem execSize_eq_ok (h : execSize st = .ok st') :
    ∃ x rest, st.stack = x :: rest ∧
      st' = { st with stack := (ofSizeT x.length).getvch :: st.stack } := by
  unfold execSize at h
  split at h
  · next x rest hstack => exact ⟨x, rest, hstack, (Except.pure_eq_ok_iff.1 h).symm⟩
  · exact absurd h Except.throw_ne_ok

theorem execBitwise_eq_ok {op : BitwiseOp} (h : execBitwise op st = .ok st') :
    ∃ vch2 vch1 rest, st.stack = vch2 :: vch1 :: rest ∧
      st' = { st with stack := List.zipWith op.apply vch1 vch2 :: rest } := by
  unfold execBitwise at h
  split at h
  · next vch2 vch1 rest hstack =>
    split at h
    · exact absurd h Except.throw_ne_ok
    · exact ⟨vch2, vch1, rest, hstack, (Except.pure_eq_ok_iff.1 h).symm⟩
  · exact absurd h Except.throw_ne_ok

theorem execEqual_popsAndPushesResult (h : execEqual verify st = .ok st') :
    st.PopsAndPushesResult st' := by
  unfold execEqual at h
  split at h
  · next vch2 vch1 rest hstack =>
    exact pushOrVerify_popsAndPushesResult h 2 (by simp [hstack]) rfl rfl
  · exact absurd h Except.throw_ne_ok

/-- The numeric opcodes push one script number, or in `OP_NUMEQUALVERIFY`
nothing, in place of their operands. -/
theorem execUnaryNum_eq_ok {op : UnaryNumOp} (h : execUnaryNum flags op st = .ok st') :
    ∃ top rest, ∃ bn : CScriptNum, st.stack = top :: rest ∧
      st' = { st with stack := bn.getvch :: rest } := by
  unfold execUnaryNum at h
  split at h
  · next top rest hstack =>
    repeat (obtain ⟨_, -, h⟩ := Except.bind_eq_ok_iff.1 h)
    exact ⟨top, rest, _, hstack, (Except.pure_eq_ok_iff.1 h).symm⟩
  · exact absurd h Except.throw_ne_ok

theorem execBinaryNum_eq_ok {op : BinaryNumOp} (h : execBinaryNum flags op st = .ok st') :
    ∃ x2 x1 rest, ∃ bn : CScriptNum, st.stack = x2 :: x1 :: rest ∧
      (st' = { st with stack := rest } ∨ st' = { st with stack := bn.getvch :: rest }) := by
  unfold execBinaryNum at h
  split at h
  · next x2 x1 rest hstack =>
    obtain ⟨_, -, h⟩ := Except.bind_eq_ok_iff.1 h
    obtain ⟨_, -, h⟩ := Except.bind_eq_ok_iff.1 h
    obtain ⟨bn, -, h⟩ := Except.bind_eq_ok_iff.1 h
    refine ⟨x2, x1, rest, bn, hstack, ?_⟩
    split at h
    · split at h
      · exact .inl (Except.pure_eq_ok_iff.1 h).symm
      · exact absurd h Except.throw_ne_ok
    · exact .inr (Except.pure_eq_ok_iff.1 h).symm
  · exact absurd h Except.throw_ne_ok

theorem execWithin_eq_ok (h : execWithin flags st = .ok st') :
    ∃ x3 x2 x1 rest b, st.stack = x3 :: x2 :: x1 :: rest ∧ (b = vchTrue ∨ b = vchFalse) ∧
      st' = { st with stack := b :: rest } := by
  unfold execWithin at h
  split at h
  · next x3 x2 x1 rest hstack =>
    repeat (obtain ⟨_, -, h⟩ := Except.bind_eq_ok_iff.1 h)
    refine ⟨x3, x2, x1, rest, _, hstack, ?_, (Except.pure_eq_ok_iff.1 h).symm⟩
    split <;> simp
  · exact absurd h Except.throw_ne_ok

theorem execHash_eq_ok {op : HashOp} (h : execHash crypto op st = .ok st') :
    ∃ vch rest, st.stack = vch :: rest ∧ st' = { st with stack := op.digest crypto vch :: rest } := by
  unfold execHash at h
  split at h
  · next vch rest hstack => exact ⟨vch, rest, hstack, (Except.pure_eq_ok_iff.1 h).symm⟩
  · exact absurd h Except.throw_ne_ok

theorem execCat_eq_ok (h : execCat st = .ok st') :
    ∃ vch2 vch1 rest, st.stack = vch2 :: vch1 :: rest ∧
      vch1.length + vch2.length ≤ maxScriptElementSize ∧
      st' = { st with stack := (vch1 ++ vch2) :: rest } := by
  unfold execCat at h
  split at h
  · next vch2 vch1 rest hstack =>
    split at h
    · exact absurd h Except.throw_ne_ok
    · next hlen =>
      exact ⟨vch2, vch1, rest, hstack, not_lt.mp hlen, (Except.pure_eq_ok_iff.1 h).symm⟩
  · exact absurd h Except.throw_ne_ok

theorem execSplit_eq_ok (h : execSplit flags st = .ok st') :
    ∃ top data rest position, st.stack = top :: data :: rest ∧
      st' = { st with stack := data.drop position :: data.take position :: rest } := by
  unfold execSplit at h
  split at h
  · next top data rest hstack =>
    repeat (obtain ⟨_, -, h⟩ := Except.bind_eq_ok_iff.1 h)
    exact ⟨top, data, rest, _, hstack, (Except.pure_eq_ok_iff.1 h).symm⟩
  · exact absurd h Except.throw_ne_ok

theorem execReverseBytes_eq_ok (h : execReverseBytes flags st = .ok st') :
    ∃ data rest, st.stack = data :: rest ∧ st' = { st with stack := data.reverse :: rest } := by
  unfold execReverseBytes at h
  split at h
  · exact absurd h Except.throw_ne_ok
  · split at h
    · next data rest hstack => exact ⟨data, rest, hstack, (Except.pure_eq_ok_iff.1 h).symm⟩
    · exact absurd h Except.throw_ne_ok

theorem execNum2Bin_eq_ok (h : execNum2Bin flags st = .ok st') :
    ∃ top rawnum rest size out, st.stack = top :: rawnum :: rest ∧
      size ≤ maxScriptElementSize ∧ num2Bin rawnum size = .ok out ∧
      st' = { st with stack := out :: rest } := by
  unfold execNum2Bin at h
  split at h
  · next top rawnum rest hstack =>
    obtain ⟨bn, -, h⟩ := Except.bind_eq_ok_iff.1 h
    obtain ⟨_, hsize, h⟩ := Except.bind_eq_ok_iff.1 h
    obtain ⟨out, hout, h⟩ := Except.bind_eq_ok_iff.1 h
    refine ⟨top, rawnum, rest, _, out, hstack, ?_, hout, (Except.pure_eq_ok_iff.1 h).symm⟩
    exact not_lt.mp (failIf_eq_ok.1 hsize)
  · exact absurd h Except.throw_ne_ok

theorem execBin2Num_eq_ok (h : execBin2Num st = .ok st') :
    ∃ n rest, st.stack = n :: rest ∧ isMinimallyEncoded (minimallyEncode n).2 4 = true ∧
      st' = { st with stack := (minimallyEncode n).2 :: rest } := by
  unfold execBin2Num at h
  split at h
  · next n rest hstack =>
    dsimp only at h
    split at h
    · exact absurd h Except.throw_ne_ok
    · next hmin =>
      refine ⟨n, rest, hstack, by simpa using hmin, (Except.pure_eq_ok_iff.1 h).symm⟩
  · exact absurd h Except.throw_ne_ok

theorem ScriptState.PopsAndPushesResult.opcodeEffect (h : st.PopsAndPushesResult st') :
    st.OpcodeEffect st' :=
  ⟨h.2.1, h.elementsFrom⟩

/-- `OP_1NEGATE`, `OP_1` ... `OP_16` push a number of at most two bytes. -/
theorem serialize_pushNumber_length_le (opcode : UInt8) :
    (serialize ((opcode.toNat : Int) - ((op1.toNat : Int) - 1))).length ≤ 2 := by
  have hop := opcode.toNat_lt
  have hop1 : (op1.toNat : Int) = 81 := rfl
  exact @serialize_length_le_of_natAbs_lt _ 1 (by omega)

section execOpcode

variable {fExec : Bool} {pc : List UInt8}

/-- Every opcode other than the conditionals keeps the condition stack and
makes no element longer than both an old one and `MAX_SCRIPT_ELEMENT_SIZE`. -/
theorem execOpcode_opcodeEffect {c : OpcodeCase}
    (hif : ∀ notIf, c ≠ .ifNotIf notIf) (helse : c ≠ .elseCase) (hendif : c ≠ .endIf)
    (h : execOpcode crypto checker flags maxOps fExec pc c st = .ok st') :
    st.OpcodeEffect st' := by
  have hlimit : (9 : Nat) ≤ maxScriptElementSize := by decide
  have hsuffix : ∀ {x : List UInt8} {rest : List (List UInt8)}, st.stack = x :: rest →
      ∀ v ∈ rest, v ∈ st.stack := fun hstack v hv => by simp [hstack, hv]
  cases c with
  | ifNotIf notIf => exact absurd rfl (hif notIf)
  | elseCase => exact absurd rfl helse
  | endIf => exact absurd rfl hendif
  | pushNumber opcode =>
    obtain rfl := Except.pure_eq_ok_iff.1 h
    have := serialize_pushNumber_length_le opcode
    exact .push (by omega) fun v hv => hv
  | nop =>
    obtain rfl := Except.pure_eq_ok_iff.1 h
    exact .refl _
  | checkLockTimeVerify =>
    obtain rfl := execCheckLockTimeVerify_eq_ok h
    exact .refl _
  | checkSequenceVerify =>
    obtain rfl := execCheckSequenceVerify_eq_ok h
    exact .refl _
  | upgradableNop =>
    obtain rfl := execUpgradableNop_eq_ok h
    exact .refl _
  | verify =>
    obtain ⟨vch, rest, hstack, rfl⟩ := execVerify_eq_ok h
    exact .of_subset (hsuffix hstack)
  | opReturn | badOpcode => exact absurd h Except.throw_ne_ok
  | toAltStack =>
    obtain ⟨vch, rest, hstack, rfl⟩ := execToAltStack_eq_ok h
    refine ⟨rfl, fun v hv => .inl ⟨v, ?_, le_rfl⟩⟩
    simp only [List.mem_cons] at hv
    rw [hstack, List.mem_cons]
    tauto
  | fromAltStack =>
    obtain ⟨vch, rest, haltstack, rfl⟩ := execFromAltStack_eq_ok h
    refine ⟨rfl, fun v hv => .inl ⟨v, ?_, le_rfl⟩⟩
    simp only [List.mem_cons] at hv
    rw [haltstack, List.mem_cons]
    tauto
  | shuffle op =>
    obtain ⟨stack, hstack, rfl⟩ := stackShuffle_eq_ok h
    exact .of_subset fun v hv => ShuffleOp.mem_of_apply hstack hv
  | depth =>
    obtain rfl := Except.pure_eq_ok_iff.1 h
    exact .push (le_trans (getvch_length_le _) hlimit) fun v hv => hv
  | size =>
    obtain ⟨x, rest, -, rfl⟩ := execSize_eq_ok h
    exact .push (le_trans (getvch_length_le _) hlimit) fun v hv => hv
  | pickRoll roll =>
    obtain ⟨top, rest, n, hstack, hn, rfl⟩ := execPickRoll_eq_ok h
    have hpicked : rest.getD n [] ∈ rest := by
      rw [List.getD_eq_getElem _ _ hn]
      exact List.getElem_mem hn
    refine .of_subset fun v hv => hsuffix hstack v ?_
    rcases List.mem_cons.mp hv with rfl | hv
    · exact hpicked
    · split at hv
      · exact List.mem_of_mem_eraseIdx hv
      · exact hv
  | bitwise op =>
    obtain ⟨vch2, vch1, rest, hstack, rfl⟩ := execBitwise_eq_ok h
    refine .of_stack fun v hv => ?_
    rcases List.mem_cons.mp hv with rfl | hv
    · exact .inl ⟨vch1, by simp [hstack], by simp⟩
    · exact .inl ⟨v, by simp [hstack, hv], le_rfl⟩
  | equal verify => exact (execEqual_popsAndPushesResult h).opcodeEffect
  | unaryNum op =>
    obtain ⟨top, rest, bn, hstack, rfl⟩ := execUnaryNum_eq_ok h
    exact .push (le_trans (getvch_length_le bn) hlimit) (hsuffix hstack)
  | binaryNum op =>
    obtain ⟨x2, x1, rest, bn, hstack, rfl | rfl⟩ := execBinaryNum_eq_ok h
    · exact .of_subset fun v hv => by simp [hstack, hv]
    · exact .push (le_trans (getvch_length_le bn) hlimit) fun v hv => by simp [hstack, hv]
  | within =>
    obtain ⟨x3, x2, x1, rest, b, hstack, hb, rfl⟩ := execWithin_eq_ok h
    have hblen : b.length ≤ maxScriptElementSize := by
      rcases hb with rfl | rfl <;> decide
    exact .push hblen fun v hv => by simp [hstack, hv]
  | hash op =>
    obtain ⟨vch, rest, hstack, rfl⟩ := execHash_eq_ok h
    have hdigest := HashOp.digest_length_le crypto op vch
    exact .push (by simp only [maxScriptElementSize]; omega) (hsuffix hstack)
  | codeSeparator =>
    obtain rfl := Except.pure_eq_ok_iff.1 h
    exact ⟨rfl, .of_subset rfl fun v hv => hv⟩
  | checkSig verify => exact (execCheckSig_popsAndPushesResult h).opcodeEffect
  | checkMultiSig verify => exact (execCheckMultiSig_popsAndPushesResult h).opcodeEffect
  | checkDataSig verify => exact (execCheckDataSig_popsAndPushesResult h).opcodeEffect
  | cat =>
    obtain ⟨vch2, vch1, rest, hstack, hlen, rfl⟩ := execCat_eq_ok h
    exact .push (by simpa using hlen) fun v hv => by simp [hstack, hv]
  | split =>
    obtain ⟨top, data, rest, position, hstack, rfl⟩ := execSplit_eq_ok h
    have hdata : data ∈ st.stack := by simp [hstack]
    refine .of_stack fun v hv => ?_
    simp only [List.mem_cons] at hv
    rcases hv with rfl | rfl | hv
    · exact .inl ⟨data, hdata, by simp⟩
    · exact .inl ⟨data, hdata, by simp⟩
    · exact .inl ⟨v, by simp [hstack, hv], le_rfl⟩
  | reverseBytes =>
    obtain ⟨data, rest, hstack, rfl⟩ := execReverseBytes_eq_ok h
    refine .of_stack fun v hv => ?_
    rcases List.mem_cons.mp hv with rfl | hv
    · exact .inl ⟨data, by simp [hstack], by simp⟩
    · exact .inl ⟨v, hsuffix hstack v hv, le_rfl⟩
  | num2Bin =>
    obtain ⟨top, rawnum, rest, size, out, hstack, hsize, hout, rfl⟩ := execNum2Bin_eq_ok h
    exact .push (num2Bin_length hout ▸ hsize) fun v hv => by simp [hstack, hv]
  | bin2Num =>
    obtain ⟨n, rest, hstack, hmin, rfl⟩ := execBin2Num_eq_ok h
    have hlen := isMinimallyEncoded_length_le hmin
    exact .push (by simp only [maxScriptElementSize]; omega) (hsuffix hstack)

end execOpcode

/-- Counting an operation changes only the counter. -/
theorem countOp_eq_ok {opcode : UInt8} (h : countOp maxOps opcode st = .ok st') :
    st' = { st with nOpCount := st'.nOpCount } := by
  unfold countOp at h
  split_ifs at h
  · obtain rfl := Except.pure_eq_ok_iff.1 h
    rfl
  · obtain rfl := Except.pure_eq_ok_iff.1 h
    rfl

end Membercoin
