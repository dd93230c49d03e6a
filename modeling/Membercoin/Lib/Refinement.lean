import Mathlib

/-!
# Refinement of runs

A concrete machine `step : S → O → Option S`, whose steps may be undefined,
refines an abstract one `astep : A → O → A` under a relation `R` when every
operation valid in the abstract state can be run from every related concrete
state and lands in a state related to the abstract result (`StepRefines`).
Then every run of valid operations can be run, and ends related to the
abstract run (`run_refines`); so does every prefix of it, since a prefix of
a valid run is valid. A machine whose steps fail with an error is run through
`Except.toOption` (`run_toOption`).

A store of several objects, each refining its abstract counterpart, is related
elementwise (`List.Forall₂`): reading, replacing and appending an object keep
the relation (`forall₂_getD`, `forall₂_set`).
-/

namespace Refinement

variable {S A O : Type}

/-- The concrete run: each operation in turn, undefined from the first
undefined step. -/
def run (step : S → O → Option S) (s : S) (ops : List O) : Option S := ops.foldlM step s

/-- The abstract run. -/
def arun (astep : A → O → A) (a : A) (ops : List O) : A := ops.foldl astep a

/-- Every operation of the run is valid in the abstract state it meets. -/
def ValidRun (astep : A → O → A) (valid : A → O → Prop) : A → List O → Prop
  | _, [] => True
  | a, o :: ops => valid a o ∧ ValidRun astep valid (astep a o) ops

instance instDecidableValidRun {astep : A → O → A} {valid : A → O → Prop} [∀ a o, Decidable (valid a o)] :
    ∀ a ops, Decidable (ValidRun astep valid a ops)
  | _, [] => isTrue trivial
  | a, o :: ops => @instDecidableAnd _ _ inferInstance (instDecidableValidRun (astep a o) ops)

theorem arun_append (astep : A → O → A) (a : A) (ops₁ ops₂ : List O) :
    arun astep a (ops₁ ++ ops₂) = arun astep (arun astep a ops₁) ops₂ :=
  List.foldl_append

/-- A run of two parts is valid when the first is, and the second from where
the first ends. -/
theorem validRun_append {astep : A → O → A} {valid : A → O → Prop} :
    ∀ (ops₁ ops₂ : List O) (a : A),
      ValidRun astep valid a (ops₁ ++ ops₂) ↔ ValidRun astep valid a ops₁ ∧ ValidRun astep valid (arun astep a ops₁) ops₂
  | [], _, _ => by simp [ValidRun, arun]
  | o :: ops₁, ops₂, a => by
    rw [List.cons_append, ValidRun, ValidRun, validRun_append ops₁ ops₂ (astep a o), and_assoc]
    rfl

/-- One step of the concrete machine simulates one step of the abstract one. -/
def StepRefines (step : S → O → Option S) (astep : A → O → A) (valid : A → O → Prop) (R : S → A → Prop) :
    Prop :=
  ∀ s a o, R s a → valid a o → ∃ s', step s o = some s' ∧ R s' (astep a o)

/-- A run of valid operations is defined and ends related to the abstract
run. -/
theorem run_refines {step : S → O → Option S} {astep : A → O → A} {valid : A → O → Prop} {R : S → A → Prop}
    (h : StepRefines step astep valid R) :
    ∀ (ops : List O) {s : S} {a : A}, R s a → ValidRun astep valid a ops →
      ∃ s', run step s ops = some s' ∧ R s' (arun astep a ops)
  | [], s, _, hR, _ => ⟨s, rfl, hR⟩
  | o :: ops, _, _, hR, ⟨ho, hrest⟩ => by
    obtain ⟨s', hs', hR'⟩ := h _ _ o hR ho
    obtain ⟨s'', hrun, hR''⟩ := run_refines h ops hR' hrest
    exact ⟨s'', by rw [run, List.foldlM_cons, hs', Option.bind_eq_bind, Option.bind_some]; exact hrun, hR''⟩

/-- A machine whose steps fail with an error runs as the machine that forgets
the error. -/
theorem run_toOption {ε : Type} (f : S → O → Except ε S) :
    ∀ (ops : List O) (s : S), run (fun s o => (f s o).toOption) s ops = (ops.foldlM f s).toOption
  | [], _ => rfl
  | o :: ops, s => by
    rw [run, List.foldlM_cons, List.foldlM_cons]
    cases f s o with
    | error e => rfl
    | ok s' => exact run_toOption f ops s'

section store

variable {R : S → A → Prop}

/-- The object at a valid index of a related store is related to the
abstract one there. -/
theorem forall₂_getD {l₁ : List S} {l₂ : List A} (h : List.Forall₂ R l₁ l₂) (d : A) :
    ∀ {i}, i < l₂.length → ∃ s, l₁[i]? = some s ∧ R s (l₂.getD i d) := by
  induction h with
  | nil => intro i hi; exact absurd hi (Nat.not_lt_zero i)
  | cons hab _ ih =>
    intro i hi
    cases i with
    | zero => exact ⟨_, rfl, hab⟩
    | succ i => exact ih (Nat.lt_of_succ_lt_succ hi)

/-- Replacing related objects at one index keeps a store related. -/
theorem forall₂_set {l₁ : List S} {l₂ : List A} (h : List.Forall₂ R l₁ l₂) {s : S} {a : A} (hsa : R s a) :
    ∀ i, List.Forall₂ R (l₁.set i s) (l₂.set i a) := by
  induction h with
  | nil => intro i; exact List.Forall₂.nil
  | cons hab _ ih =>
    intro i
    cases i with
    | zero => exact List.Forall₂.cons hsa (by assumption)
    | succ i => exact List.Forall₂.cons hab (ih i)

end store

end Refinement
