import Membercoin.Script.Frame

/-!
# Runs of the interpreter

`ScriptMachine::Eval` is `BeginStep`, a loop of `Step` until the script is
used up, and `EndStep`. A successful loop is a chain of successful steps that
ends with an empty iterator, so every invariant of one `Step` holds after the
whole loop. The run facts below are how the later modules lift their step
lemmas to `Eval`.
-/

namespace Membercoin

variable {crypto : CryptoFunctions} {checker : BaseSignatureChecker}

section errors

variable {P : Fault → Prop} (hP : ∀ err, P (.scriptError err))
include hP

theorem countOp_errorsIn {maxOps : Nat} {opcode : UInt8} {st : ScriptState} :
    (countOp maxOps opcode st).ErrorsIn P := by
  unfold countOp
  exact .ite (fun _ => .ite (fun _ => .throw (hP _)) fun _ => .pure _) fun _ => .pure _

theorem dispatchOpcode_errorsIn {flags : UInt32} {maxOps : Nat} {fExec : Bool} {opcode : UInt8}
    {vchPushValue pc : List UInt8} {st : ScriptState}
    (hexec : (execOpcode crypto checker flags maxOps fExec pc (decodeOpcodeCase opcode) st).ErrorsIn P) :
    (dispatchOpcode crypto checker flags maxOps fExec opcode vchPushValue pc st).ErrorsIn P := by
  unfold dispatchOpcode
  refine .ite (fun _ => .ite (fun _ => .throw (hP _)) fun _ => .pure _) fun _ => ?_
  exact .ite (fun _ => hexec) fun _ => .pure _

/-- Apart from the case of the `switch` it runs, a step fails only with script
errors; so it raises only errors of a kind `P` that every script error is of,
as soon as that case does. -/
theorem ScriptMachine.step_errorsIn {sm : ScriptMachine}
    (hexec : ∀ opcode vchPushValue pc, getOp2 sm.pc = some (opcode, vchPushValue, pc) →
      ∀ st, (execOpcode crypto checker sm.flags sm.maxOps sm.state.vfExec.allTrue pc
        (decodeOpcodeCase opcode) st).ErrorsIn P) :
    (sm.step crypto checker).ErrorsIn P := by
  unfold ScriptMachine.step
  dsimp only
  split
  · exact .throw (hP _)
  · next opcode vchPushValue pc hop =>
    refine .ite (fun _ => .throw (hP _)) fun _ => .bind (countOp_errorsIn hP) fun st₁ _ => ?_
    refine .ite (fun _ => .throw (hP _)) fun _ => .bind ?_ fun st₂ _ => ?_
    · exact dispatchOpcode_errorsIn hP (hexec opcode vchPushValue pc hop st₁)
    · exact .ite (fun _ => .throw (hP _)) fun _ => .pure _

end errors

/-- A non-push operation carries no data. -/
theorem getOp2_data_eq_nil {pc pc' data : List UInt8} {opcode : UInt8}
    (h : getOp2 pc = some (opcode, data, pc')) (hgt : opPushData4 < opcode) : data = [] := by
  cases pc with
  | nil => cases h
  | cons b rest =>
    simp only [getOp2] at h
    by_cases hle : b ≤ opPushData4
    · rw [if_pos hle] at h
      split at h
      · cases h
      · split_ifs at h
        cases h
        exact absurd hle (UInt8.not_le.2 hgt)
    · rw [if_neg hle] at h
      cases h
      rfl

/-- A step at an executed opcode above `OP_16` that is not disabled counts
the opcode, runs its case of the `switch` and checks the size of the
stacks. -/
theorem ScriptMachine.step_of_opcode {sm : ScriptMachine} {opcode : UInt8}
    {vchPushValue pc : List UInt8} (hop : getOp2 sm.pc = some (opcode, vchPushValue, pc))
    (hgt : op16 < opcode) (hen : isOpcodeDisabled opcode sm.flags = false)
    (hexec : sm.state.vfExec.allTrue = true) (hcount : sm.state.nOpCount < sm.maxOps) :
    sm.step crypto checker =
      execOpcode crypto checker sm.flags sm.maxOps true pc (decodeOpcodeCase opcode)
          { sm.state with nOpCount := sm.state.nOpCount + 1 } >>= fun st =>
        if st.stack.length + st.altstack.length > maxStackSize then
          throw (.scriptError .stackSize)
        else pure { sm with pc := pc, state := st } := by
  have hpush : opPushData4 < opcode := UInt8.lt_trans (by decide) hgt
  obtain rfl := getOp2_data_eq_nil hop hpush
  have hcounted : countOp sm.maxOps opcode sm.state =
      .ok { sm.state with nOpCount := sm.state.nOpCount + 1 } := by
    rw [countOp, if_pos hgt, if_neg (by omega)]
    rfl
  have hdispatch : ∀ st, dispatchOpcode crypto checker sm.flags sm.maxOps true opcode [] pc st =
      execOpcode crypto checker sm.flags sm.maxOps true pc (decodeOpcodeCase opcode) st := by
    intro st
    rw [dispatchOpcode, if_neg (fun h => absurd h.2 (UInt8.not_le.2 hpush)), if_pos (.inl rfl)]
  unfold ScriptMachine.step
  simp only [hop, List.length_nil, hcounted, Except.ok_bind, hen, hexec, hdispatch]
  rfl

/-- `sm'` is reached from `sm` by successful steps. -/
def ScriptMachine.Steps (crypto : CryptoFunctions) (checker : BaseSignatureChecker) :
    ScriptMachine → ScriptMachine → Prop :=
  Relation.ReflTransGen fun sm sm' => sm.step crypto checker = .ok sm'

/-- Every invariant of one step holds along a run. -/
theorem ScriptMachine.Steps.invariant {I : ScriptMachine → Prop}
    (hstep : ∀ sm sm', I sm → sm.step crypto checker = .ok sm' → I sm')
    {sm sm' : ScriptMachine} (hrun : ScriptMachine.Steps crypto checker sm sm') (hI : I sm) :
    I sm' := by
  induction hrun with
  | refl => exact hI
  | tail _ hlast ih => exact hstep _ _ ih hlast

/-- A successful loop of `Eval` is a run that uses up the script. -/
theorem ScriptMachine.evalLoop_eq_ok {sm sm' : ScriptMachine}
    (h : sm.evalLoop crypto checker = .ok sm') :
    ScriptMachine.Steps crypto checker sm sm' ∧ sm'.pc = [] := by
  fun_induction ScriptMachine.evalLoop crypto checker sm with
  | case1 sm hpc =>
    obtain rfl := Except.pure_eq_ok_iff.1 h
    exact ⟨.refl, hpc⟩
  | case2 sm hpc e hstep => cases h
  | case3 sm hpc smNext hstep ih =>
    obtain ⟨hrun, hend⟩ := ih h
    exact ⟨.head hstep hrun, hend⟩

/-- The loop runs no step exactly when the script is empty. -/
theorem ScriptMachine.evalLoop_of_pc_eq_nil {sm : ScriptMachine} (hpc : sm.pc = []) :
    sm.evalLoop crypto checker = .ok sm := by
  rw [ScriptMachine.evalLoop, if_pos hpc]
  rfl

/-- A loop whose next step succeeds goes on from the machine that step left. -/
theorem ScriptMachine.evalLoop_of_step {sm sm₁ : ScriptMachine} (hpc : sm.pc ≠ [])
    (hstep : sm.step crypto checker = .ok sm₁) :
    sm.evalLoop crypto checker = sm₁.evalLoop crypto checker := by
  rw [ScriptMachine.evalLoop, if_neg hpc]
  split
  · next e herr =>
    rw [hstep] at herr
    cases herr
  · next smNext hok =>
    rw [hstep] at hok
    cases hok
    rfl

theorem ScriptMachine.beginStep_eq_ok {sm sm' : ScriptMachine} {script : List UInt8}
    (h : sm.beginStep script = .ok sm') :
    script.length ≤ maxScriptSize ∧
      sm' = { sm with
        pc := script
        state := { sm.state with pbegincodehash := script, sighashtype := 0, nOpCount := 0,
                                 vfExec := ConditionStack.init } } := by
  unfold ScriptMachine.beginStep at h
  split at h
  · exact absurd h Except.throw_ne_ok
  · next hlen => exact ⟨not_lt.mp hlen, (Except.pure_eq_ok_iff.1 h).symm⟩

theorem ScriptMachine.endStep_eq_ok {sm sm' : ScriptMachine} (h : sm.endStep = .ok sm') :
    sm.state.vfExec.empty = true ∧ sm' = sm := by
  unfold ScriptMachine.endStep at h
  split at h
  · exact absurd h Except.throw_ne_ok
  · next hempty => exact ⟨by simpa using hempty, (Except.pure_eq_ok_iff.1 h).symm⟩

/-- What a successful `Eval` did: it began the script, ran it to its end and
found every `OP_IF` closed. -/
theorem ScriptMachine.eval_eq_ok {sm sm' : ScriptMachine} {script : List UInt8}
    (h : sm.eval crypto checker script = .ok sm') :
    ∃ sm₀, sm.beginStep script = .ok sm₀ ∧ ScriptMachine.Steps crypto checker sm₀ sm' ∧
      sm'.pc = [] ∧ sm'.state.vfExec.empty = true := by
  unfold ScriptMachine.eval at h
  obtain ⟨sm₀, hbegin, h⟩ := Except.bind_eq_ok_iff.1 h
  obtain ⟨sm₁, hloop, hend⟩ := Except.bind_eq_ok_iff.1 h
  obtain ⟨hempty, rfl⟩ := ScriptMachine.endStep_eq_ok hend
  obtain ⟨hrun, hpc⟩ := ScriptMachine.evalLoop_eq_ok hloop
  exact ⟨sm₀, hbegin, hrun, hpc, hempty⟩

end Membercoin
