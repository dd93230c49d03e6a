import Mathlib

/-!
# Counted loops whose body can fail

A loop `for (i = 0; i < n; i++)` whose body can fail is a `foldlM` over
`List.range n` in `Option`. When the loop succeeds, an invariant of the number
of rounds run holds of its result (`foldlM_range_invariant`); and a loop whose
body succeeds from every state of the invariant succeeds
(`foldlM_range_exists`, and `foldlM_exists` for a loop over the elements of
a list). A loop that returns `false` at the first round that fails a test is
`allM`; when every round is defined it answers whether all rounds pass
(`allM_eq_some_all`).
-/

namespace OptionLoop

variable {β : Type}

theorem foldlM_range_succ (f : β → Nat → Option β) (n : Nat) (init : β) :
    (List.range (n + 1)).foldlM f init = ((List.range n).foldlM f init).bind (f · n) := by
  rw [List.range_succ, List.foldlM_append]
  cases (List.range n).foldlM f init <;> simp

/-- The rule for a loop that succeeded: the invariant of the rounds run holds
of its result. -/
theorem foldlM_range_invariant (f : β → Nat → Option β) (P : Nat → β → Prop) {n : Nat} {init r : β}
    (h : (List.range n).foldlM f init = some r) (h0 : P 0 init)
    (hstep : ∀ j x y, j < n → P j x → f x j = some y → P (j + 1) y) : P n r := by
  induction n generalizing r with
  | zero =>
    cases h
    exact h0
  | succ n ih =>
    rw [foldlM_range_succ] at h
    obtain ⟨x, hx, hy⟩ := Option.bind_eq_some_iff.mp h
    exact hstep n x r (Nat.lt_succ_self n) (ih hx fun j x y hj => hstep j x y (Nat.lt_succ_of_lt hj)) hy

/-- The rule for a loop whose body cannot fail from a state of the invariant:
the loop succeeds, and the invariant holds of its result. -/
theorem foldlM_range_exists (f : β → Nat → Option β) (P : Nat → β → Prop) {n : Nat} {init : β}
    (h0 : P 0 init) (hstep : ∀ j x, j < n → P j x → ∃ y, f x j = some y ∧ P (j + 1) y) :
    ∃ r, (List.range n).foldlM f init = some r ∧ P n r := by
  induction n with
  | zero => exact ⟨init, rfl, h0⟩
  | succ n ih =>
    obtain ⟨x, hx, hPx⟩ := ih fun j x hj => hstep j x (Nat.lt_succ_of_lt hj)
    obtain ⟨y, hy, hPy⟩ := hstep n x (Nat.lt_succ_self n) hPx
    exact ⟨y, by rw [foldlM_range_succ, hx, Option.bind_some, hy], hPy⟩

/-- The rule for a loop over the elements of a list whose body cannot fail
from a state of the invariant. -/
theorem foldlM_exists {α : Type} (f : β → α → Option β) (P : β → Prop) :
    ∀ {l : List α} {init : β}, P init → (∀ a ∈ l, ∀ x, P x → ∃ y, f x a = some y ∧ P y) →
      ∃ r, l.foldlM f init = some r ∧ P r
  | [], init, h0, _ => ⟨init, rfl, h0⟩
  | a :: l, init, h0, hstep => by
    obtain ⟨y, hy, hPy⟩ := hstep a List.mem_cons_self init h0
    obtain ⟨r, hr, hPr⟩ := foldlM_exists f P hPy fun b hb => hstep b (List.mem_cons_of_mem a hb)
    exact ⟨r, by rw [List.foldlM_cons, hy, Option.bind_eq_bind, Option.bind_some, hr], hPr⟩

/-- A loop that stops at the first failed test, with every test defined,
answers whether every test passes. -/
theorem allM_eq_some_all {α : Type} {g : α → Option Bool} {p : α → Bool} :
    ∀ {l : List α}, (∀ a ∈ l, g a = some (p a)) → l.allM g = some (l.all p)
  | [], _ => rfl
  | a :: l, h => by
    rw [List.allM_cons, h a List.mem_cons_self, List.all_cons]
    cases p a with
    | false => rfl
    | true => exact allM_eq_some_all fun b hb => h b (List.mem_cons_of_mem a hb)

end OptionLoop
