import Mathlib

/-!
# Reasoning about programs in the `Except` monad

Inversion rules for `bind` (a successful `x >>= f` went through a successful
`x`), and `Except.ErrorsIn P x`, the statement that every error `x` can raise
satisfies `P`, with its rules for `pure`, `throw`, `bind` and `if`. The
second is how one states that a program never raises a given kind of error:
prove it of the parts and compose.
-/

namespace Except

variable {ε α β : Type}

theorem bind_eq_ok_iff {x : Except ε α} {f : α → Except ε β} {b : β} :
    x >>= f = .ok b ↔ ∃ a, x = .ok a ∧ f a = .ok b := by
  cases x with
  | error e => simp [bind, Except.bind]
  | ok a => simp [bind, Except.bind]

theorem bind_eq_error_iff {x : Except ε α} {f : α → Except ε β} {e : ε} :
    x >>= f = .error e ↔ x = .error e ∨ ∃ a, x = .ok a ∧ f a = .error e := by
  cases x with
  | error e' => simp [bind, Except.bind]
  | ok a => simp [bind, Except.bind]

@[simp] theorem ok_bind (a : α) (f : α → Except ε β) : (Except.ok a >>= f) = f a := rfl

@[simp] theorem error_bind (e : ε) (f : α → Except ε β) : (Except.error e >>= f) = .error e := rfl

@[simp] theorem pure_eq_ok_iff {a b : α} : (pure a : Except ε α) = .ok b ↔ a = b := by
  simp [pure, Except.pure]

@[simp] theorem throw_bind (e : ε) (f : α → Except ε β) : ((throw e : Except ε α) >>= f) = throw e := rfl

@[simp] theorem map_throw (f : α → β) (e : ε) : (f <$> (throw e : Except ε α)) = throw e := rfl

/-- A guard that throws: the program succeeds past it when it does not hold. -/
theorem ite_throw_eq_ok_iff {c : Prop} [Decidable c] {e : ε} {y : Except ε α} {r : α} :
    (if c then throw e else y) = .ok r ↔ ¬c ∧ y = .ok r := by
  split_ifs with hc
  · simp [hc]
  · simp [hc]

@[simp] theorem throw_ne_ok {e : ε} {b : α} : (throw e : Except ε α) ≠ .ok b := by
  simp [throw, throwThe, MonadExceptOf.throw]

theorem ite_ok (c : Prop) [Decidable c] (a b : α) :
    (if c then (Except.ok a : Except ε α) else .ok b) = .ok (if c then a else b) := by
  split <;> rfl

theorem toOption_eq_some_iff {x : Except ε α} {a : α} : x.toOption = some a ↔ x = .ok a := by
  cases x with
  | error e => simp [Except.toOption]
  | ok b => simp [Except.toOption]

/-- Every error that `x` can raise satisfies `P`. -/
def ErrorsIn (P : ε → Prop) (x : Except ε α) : Prop := ∀ e, x = .error e → P e

section ErrorsIn

variable {P : ε → Prop}

theorem ErrorsIn.ok (a : α) : ErrorsIn P (.ok a : Except ε α) := by
  intro e h
  cases h

theorem ErrorsIn.pure (a : α) : ErrorsIn P (Pure.pure a : Except ε α) := ErrorsIn.ok a

theorem ErrorsIn.throw {e : ε} (he : P e) : ErrorsIn P (throw e : Except ε α) := by
  intro e' h
  cases h
  exact he

theorem ErrorsIn.bind {x : Except ε α} {f : α → Except ε β} (hx : ErrorsIn P x)
    (hf : ∀ a, x = .ok a → ErrorsIn P (f a)) : ErrorsIn P (x >>= f) := by
  intro e h
  rcases bind_eq_error_iff.1 h with h | ⟨a, ha, hfa⟩
  · exact hx e h
  · exact hf a ha e hfa

theorem ErrorsIn.ite {c : Prop} [Decidable c] {x y : Except ε α} (hx : c → ErrorsIn P x)
    (hy : ¬c → ErrorsIn P y) : ErrorsIn P (if c then x else y) := by
  by_cases h : c
  · rw [if_pos h]
    exact hx h
  · rw [if_neg h]
    exact hy h

theorem ErrorsIn.of_forall {x : Except ε α} (h : ∀ e, P e) : ErrorsIn P x :=
  fun e _ => h e

end ErrorsIn

end Except
