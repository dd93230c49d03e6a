import Membercoin.Lib.Brackets
import Membercoin.Script.Run

/-!
# Bracketed conditionals

A script that `Eval` accepts was read to its end by `GetOp2`, and its
`OP_IF`/`OP_NOTIF`, `OP_ELSE` and `OP_ENDIF` are bracketed, whichever branches
ran. `Step` runs the conditional opcodes in unexecuted branches too, so on
every operation the size of the condition stack moves as the bracket counter
`Brackets.depthStep` does (`dispatchOpcode_depthStep`). Along a run the
operations read so far are a prefix of the parse of the script that leaves as
many brackets open as the condition stack holds, and `EndStep` finds it empty.
-/

namespace Membercoin

/-- `OP_IF` and `OP_NOTIF` open a branch. -/
def isIfOpcode (op : UInt8) : Bool := op == opIf || op == opNotIf

/-- `OP_ENDIF` closes a branch. -/
def isEndIfOpcode (op : UInt8) : Bool := op == opEndIf

/-- `OP_ELSE` stands inside a branch. -/
def isElseOpcode (op : UInt8) : Bool := op == opElse

/-- The conditional cases of the `switch` are reached from their own opcodes
and from no other byte. -/
theorem decodeOpcodeCase_conditional : ∀ op : UInt8,
    (decodeOpcodeCase op = .ifNotIf false ↔ op = opIf) ∧
    (decodeOpcodeCase op = .ifNotIf true ↔ op = opNotIf) ∧
    (decodeOpcodeCase op = .elseCase ↔ op = opElse) ∧
    (decodeOpcodeCase op = .endIf ↔ op = opEndIf) := by
  decide +kernel

section kinds

variable {op : UInt8}

theorem isEndIfOpcode_of_isIfOpcode (h : isIfOpcode op = true) : isEndIfOpcode op = false := by
  simp only [isIfOpcode, Bool.or_eq_true, beq_iff_eq] at h
  rcases h with rfl | rfl <;> rfl

theorem isElseOpcode_of_isIfOpcode (h : isIfOpcode op = true) : isElseOpcode op = false := by
  simp only [isIfOpcode, Bool.or_eq_true, beq_iff_eq] at h
  rcases h with rfl | rfl <;> rfl

theorem isElseOpcode_of_isEndIfOpcode (h : isEndIfOpcode op = true) : isElseOpcode op = false := by
  simp only [isEndIfOpcode, beq_iff_eq] at h
  subst h
  rfl

/-- The bracket opcodes lie in the range that `Step` dispatches in unexecuted
branches. -/
theorem range_of_bracket
    (h : isIfOpcode op = true ∨ isEndIfOpcode op = true ∨ isElseOpcode op = true) :
    opIf ≤ op ∧ op ≤ opEndIf := by
  simp only [isIfOpcode, isEndIfOpcode, isElseOpcode, Bool.or_eq_true, beq_iff_eq] at h
  rcases h with (rfl | rfl) | rfl | rfl <;> decide

/-- An opcode outside `OP_IF` to `OP_ENDIF` is no bracket. -/
theorem depthStep_of_not_range (h : ¬(opIf ≤ op ∧ op ≤ opEndIf)) {d : Nat} :
    Brackets.depthStep isIfOpcode isEndIfOpcode isElseOpcode d op = some d := by
  refine Brackets.depthStep_of_other ?_ ?_ ?_ <;> rw [Bool.eq_false_iff] <;> intro hb
  · exact h (range_of_bracket (.inl hb))
  · exact h (range_of_bracket (.inr (.inl hb)))
  · exact h (range_of_bracket (.inr (.inr hb)))

end kinds

section execOpcode

variable {crypto : CryptoFunctions} {checker : BaseSignatureChecker} {flags : UInt32}
  {maxOps : Nat} {fExec : Bool} {pc : List UInt8} {st st' : ScriptState}

/-- The `switch` case of an opcode moves the condition stack as the bracket
counter reads that opcode. -/
theorem execOpcode_depthStep {opcode : UInt8} {c : OpcodeCase}
    (hc : decodeOpcodeCase opcode = c)
    (h : execOpcode crypto checker flags maxOps fExec pc c st = .ok st') :
    Brackets.depthStep isIfOpcode isEndIfOpcode isElseOpcode st.vfExec.stackSize opcode =
      some st'.vfExec.stackSize := by
  obtain ⟨hIf, hNotIf, hElse, hEndIf⟩ := decodeOpcodeCase_conditional opcode
  by_cases hif : ∃ notIf, c = .ifNotIf notIf
  · obtain ⟨notIf, rfl⟩ := hif
    obtain ⟨f, hvf, -, -⟩ := execIf_eq_ok h
    have hop : isIfOpcode opcode = true := by
      cases notIf
      · simp [isIfOpcode, hIf.mp hc]
      · simp [isIfOpcode, hNotIf.mp hc]
    rw [hvf, ConditionStack.pushBack_stackSize]
    exact Brackets.depthStep_of_open hop
  by_cases helse : c = .elseCase
  · subst helse
    obtain ⟨hne, htoggle, -⟩ := execElse_eq_ok h
    obtain rfl : opcode = opElse := hElse.mp hc
    have hpos := (ConditionStack.empty_eq_false_iff _).mp hne
    rw [ConditionStack.toggleTop_stackSize htoggle]
    exact Brackets.depthStep_of_inner rfl rfl rfl hpos
  by_cases hendif : c = .endIf
  · subst hendif
    obtain ⟨hne, hpop, -⟩ := execEndIf_eq_ok h
    obtain rfl : opcode = opEndIf := hEndIf.mp hc
    have hpos := (ConditionStack.empty_eq_false_iff _).mp hne
    have hsize := ConditionStack.popBack_stackSize hpop
    rw [Brackets.depthStep_of_close rfl rfl hpos]
    congr 1
    omega
  rw [(execOpcode_opcodeEffect (fun notIf hc' => hif ⟨notIf, hc'⟩) helse hendif h).vfExec_eq]
  refine Brackets.depthStep_of_other ?_ ?_ ?_ <;> rw [Bool.eq_false_iff] <;> intro hb
  · simp only [isIfOpcode, Bool.or_eq_true, beq_iff_eq] at hb
    rcases hb with hb | hb
    · exact hif ⟨false, hc.symm.trans (hIf.mpr hb)⟩
    · exact hif ⟨true, hc.symm.trans (hNotIf.mpr hb)⟩
  · simp only [isEndIfOpcode, beq_iff_eq] at hb
    exact hendif (hc.symm.trans (hEndIf.mpr hb))
  · simp only [isElseOpcode, beq_iff_eq] at hb
    exact helse (hc.symm.trans (hElse.mpr hb))

/-- Whatever `Step` does with an operation, the condition stack moves as the
bracket counter reads its opcode: pushes lie below `OP_IF`, and in an
unexecuted branch only `OP_IF` to `OP_ENDIF` are dispatched. -/
theorem dispatchOpcode_depthStep {opcode : UInt8} {vchPushValue : List UInt8}
    (h : dispatchOpcode crypto checker flags maxOps fExec opcode vchPushValue pc st = .ok st') :
    Brackets.depthStep isIfOpcode isEndIfOpcode isElseOpcode st.vfExec.stackSize opcode =
      some st'.vfExec.stackSize := by
  unfold dispatchOpcode at h
  split_ifs at h with hpush hmin hexec
  · obtain rfl := Except.pure_eq_ok_iff.1 h
    exact depthStep_of_not_range fun hr => absurd (UInt8.le_trans hr.1 hpush.2) (by decide)
  · exact execOpcode_depthStep rfl h
  · obtain rfl := Except.pure_eq_ok_iff.1 h
    exact depthStep_of_not_range fun hr => hexec (.inr hr)

end execOpcode

/-! ## Reading the script -/

/-- `pc` is where the reading of `script` stands once the operations `done`
are read: parsing the script is reading `done`, then parsing from `pc`. -/
def ParsedUpTo (script pc : List UInt8) (done : List (UInt8 × List UInt8)) : Prop :=
  parseScript script = (parseScript pc).map (done ++ ·)

namespace ParsedUpTo

variable {script pc : List UInt8} {done : List (UInt8 × List UInt8)}

theorem start (script : List UInt8) : ParsedUpTo script script [] := by
  simp [ParsedUpTo]

theorem next (h : ParsedUpTo script pc done) {opcode : UInt8} {data pc' : List UInt8}
    (hop : getOp2 pc = some (opcode, data, pc')) :
    ParsedUpTo script pc' (done ++ [(opcode, data)]) := by
  unfold ParsedUpTo at h ⊢
  rw [h, parseScript_of_getOp2 hop, Option.map_map]
  congr 1
  funext ops
  simp

theorem finish (h : ParsedUpTo script [] done) : parseScript script = some done := by
  rw [h, parseScript_nil]
  simp

end ParsedUpTo

variable {crypto : CryptoFunctions} {checker : BaseSignatureChecker}

/-- The opcodes read by a run of `script` are a prefix of its parse that
leaves as many brackets open as the condition stack holds. -/
def ScriptMachine.ReadBracketed (script : List UInt8) (sm : ScriptMachine) : Prop :=
  ∃ done, ParsedUpTo script sm.pc done ∧
    Brackets.OpenPrefix isIfOpcode isEndIfOpcode isElseOpcode (done.map Prod.fst)
      sm.state.vfExec.stackSize

/-- A step reads one operation, and the condition stack moves as the bracket
counter reads its opcode. -/
theorem ScriptMachine.step_depthStep {sm sm' : ScriptMachine}
    (h : sm.step crypto checker = .ok sm') :
    ∃ opcode vchPushValue, getOp2 sm.pc = some (opcode, vchPushValue, sm'.pc) ∧
      Brackets.depthStep isIfOpcode isEndIfOpcode isElseOpcode sm.state.vfExec.stackSize opcode =
        some sm'.state.vfExec.stackSize := by
  obtain ⟨opcode, vchPushValue, pc, st₁, st₂, hop, -, hcount, -, hdisp, -, rfl⟩ :=
    ScriptMachine.step_eq_ok h
  have hvf : st₁.vfExec = sm.state.vfExec := by
    rw [countOp_eq_ok hcount]
  refine ⟨opcode, vchPushValue, hop, ?_⟩
  rw [← hvf]
  exact dispatchOpcode_depthStep hdisp

theorem ScriptMachine.step_readBracketed {script : List UInt8} {sm sm' : ScriptMachine}
    (h : sm.step crypto checker = .ok sm') (hread : sm.ReadBracketed script) :
    sm'.ReadBracketed script := by
  obtain ⟨done, hparsed, hopen⟩ := hread
  obtain ⟨opcode, vchPushValue, hop, hdepth⟩ := ScriptMachine.step_depthStep h
  refine ⟨done ++ [(opcode, vchPushValue)], hparsed.next hop, ?_⟩
  rw [List.map_append, List.map_singleton]
  exact hopen.snoc_depthStep (fun _ => isEndIfOpcode_of_isIfOpcode)
    (fun _ => isElseOpcode_of_isIfOpcode) (fun _ => isElseOpcode_of_isEndIfOpcode) hdepth

/-- A script that `Eval` accepts parses completely with `GetOp2`, and its
`OP_IF`/`OP_NOTIF` and `OP_ENDIF` are balanced with every `OP_ELSE` inside an
open branch, whatever the flags and the stacks it started from. -/
theorem eval_script_bracketed (crypto : CryptoFunctions) (checker : BaseSignatureChecker)
    {sm sm' : ScriptMachine} {script : List UInt8} (h : sm.eval crypto checker script = .ok sm') :
    ∃ ops, parseScript script = some ops ∧
      Brackets.Balanced isIfOpcode isEndIfOpcode isElseOpcode (ops.map Prod.fst) := by
  obtain ⟨sm₀, hbegin, hrun, hpc, hempty⟩ := ScriptMachine.eval_eq_ok h
  obtain ⟨-, rfl⟩ := ScriptMachine.beginStep_eq_ok hbegin
  have hstart : ScriptMachine.ReadBracketed script
      { sm with
        pc := script
        state := { sm.state with pbegincodehash := script, sighashtype := 0, nOpCount := 0,
                                 vfExec := ConditionStack.init } } :=
    ⟨[], .start script, Brackets.OpenPrefix.nil⟩
  obtain ⟨done, hparsed, hopen⟩ :=
    hrun.invariant (fun _ _ hread hstep => ScriptMachine.step_readBracketed hstep hread) hstart
  rw [hpc] at hparsed
  rw [(ConditionStack.empty_iff _).mp hempty] at hopen
  exact ⟨done, hparsed.finish, hopen⟩

theorem eval_script_bracketed_ifElse :
    ∃ sm' : ScriptMachine,
      (⟨0, 201, [], ⟨[[]], [], .init, [], 0, 0, 0⟩⟩ : ScriptMachine).eval .zeroDigests
        (.base fun _ _ _ => false) [opIf, opElse, opEndIf] = .ok sm' ∧
      ∃ ops, parseScript [opIf, opElse, opEndIf] = some ops ∧
        Brackets.Balanced isIfOpcode isEndIfOpcode isElseOpcode (ops.map Prod.fst) := by
  have h₁ : (⟨0, 201, [opIf, opElse, opEndIf],
      ⟨[[]], [], .init, [opIf, opElse, opEndIf], 0, 0, 0⟩⟩ : ScriptMachine).step .zeroDigests
        (.base fun _ _ _ => false) =
      .ok ⟨0, 201, [opElse, opEndIf],
        ⟨[], [], ConditionStack.init.pushBack false, [opIf, opElse, opEndIf], 0, 1, 0⟩⟩ := rfl
  have h₂ : (⟨0, 201, [opElse, opEndIf],
      ⟨[], [], ConditionStack.init.pushBack false, [opIf, opElse, opEndIf], 0, 1, 0⟩⟩ :
        ScriptMachine).step .zeroDigests (.base fun _ _ _ => false) =
      .ok ⟨0, 201, [opEndIf],
        ⟨[], [], ConditionStack.init.pushBack true, [opIf, opElse, opEndIf], 0, 2, 0⟩⟩ := rfl
  have h₃ : (⟨0, 201, [opEndIf],
      ⟨[], [], ConditionStack.init.pushBack true, [opIf, opElse, opEndIf], 0, 2, 0⟩⟩ :
        ScriptMachine).step .zeroDigests (.base fun _ _ _ => false) =
      .ok ⟨0, 201, [], ⟨[], [], .init, [opIf, opElse, opEndIf], 0, 3, 0⟩⟩ := rfl
  have heval : (⟨0, 201, [], ⟨[[]], [], .init, [], 0, 0, 0⟩⟩ : ScriptMachine).eval .zeroDigests
      (.base fun _ _ _ => false) [opIf, opElse, opEndIf] =
      .ok ⟨0, 201, [], ⟨[], [], .init, [opIf, opElse, opEndIf], 0, 3, 0⟩⟩ := by
    show ScriptMachine.evalLoop .zeroDigests (.base fun _ _ _ => false)
      ⟨0, 201, [opIf, opElse, opEndIf], ⟨[[]], [], .init, [opIf, opElse, opEndIf], 0, 0, 0⟩⟩
        >>= ScriptMachine.endStep = _
    rw [ScriptMachine.evalLoop_of_step (by simp) h₁, ScriptMachine.evalLoop_of_step (by simp) h₂,
      ScriptMachine.evalLoop_of_step (by simp) h₃, ScriptMachine.evalLoop_of_pc_eq_nil rfl]
    rfl
  exact ⟨_, heval, eval_script_bracketed _ _ heval⟩

end Membercoin
