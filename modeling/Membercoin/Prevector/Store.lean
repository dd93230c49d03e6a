import Membercoin.Prevector.Ops
import Membercoin.Lib.Refinement

/-!
# Programs over prevectors refine programs over lists

prevector_tests.cpp runs every operation on a prevector and on a
`std::vector` side by side and compares them. Here a program is a list of
calls on a store of prevectors, each call naming the vectors it uses by index
(`Call`); the same program on a store of lists is `specCall`. A call is
valid when its indices and positions are in range and every size it
produces is below `2^31` (`Call.Valid`).

One step of the store of prevectors refines one step of the store of lists
(`applyCall_refines`), so every valid program is defined and ends with each
prevector holding the list the list program gives (`Refinement.run_refines`).
-/

namespace Membercoin

namespace Prevector

open Refinement

variable {T : Type}

/-- The calls of a program: the constructors add a vector at the end of the
store, the other calls act on vector `i`. -/
inductive Call (T : Type)
  | make
  | makeSize (n : Nat)
  | makeFill (n : Nat) (val : T)
  | makeRange (xs : List T)
  | makeCopy (j : Nat)
  | makeMove (j : Nat)
  | assign (i n : Nat) (val : T)
  | assignRange (i : Nat) (xs : List T)
  | resize (i n : Nat)
  | reserve (i n : Nat)
  | shrinkToFit (i : Nat)
  | clear (i : Nat)
  | insert (i pos : Nat) (val : T)
  | insertFill (i pos count : Nat) (val : T)
  | insertRange (i pos : Nat) (xs : List T)
  | erase (i first last : Nat)
  | pushBack (i : Nat) (val : T)
  | popBack (i : Nat)
  | swap (i j : Nat)
  | copyAssign (i j : Nat)
  | moveAssign (i j : Nat)
  | write (i pos : Nat) (val : T)

/-- Vector `i` of the store replaced by what `f` makes of it. -/
def update (s : List (Prevector T)) (i : Nat) (f : Prevector T → Option (Prevector T)) :
    Option (List (Prevector T)) := do
  let p ← s[i]?
  let p' ← f p
  pure (s.set i p')

/-- A new vector at the end of the store. -/
def push (s : List (Prevector T)) (make : Option (Prevector T)) : Option (List (Prevector T)) := do
  let p ← make
  pure (s ++ [p])

/-- `swap` of vectors `i` and `j`. -/
def swapAt (s : List (Prevector T)) (i j : Nat) : Option (List (Prevector T)) := do
  let p ← s[i]?
  let q ← s[j]?
  let (p', q') := swap p q
  pure ((s.set i p').set j q')

section program

variable [Inhabited T] (N : Nat)

/-- One call on the store of prevectors. -/
def applyCall (s : List (Prevector T)) : Call T → Option (List (Prevector T))
  | .make => push s (some (empty N))
  | .makeSize n => push s (ofSize N n)
  | .makeFill n val => push s (ofFill N n val)
  | .makeRange xs => push s (ofRange N xs)
  | .makeCopy j => push s (do copy N (← s[j]?))
  | .makeMove j => do
    -- `prevector(prevector &&other)`: a new vector swapped with `other`
    let q ← s[j]?
    let (p, q') := swap (empty N) q
    pure (s.set j q' ++ [p])
  | .assign i n val => update s i (·.assign N n val)
  | .assignRange i xs => update s i (·.assignRange N xs)
  | .resize i n => update s i (·.resize N n)
  | .reserve i n => update s i (·.reserve N n)
  | .shrinkToFit i => update s i (·.shrinkToFit N)
  | .clear i => update s i (·.clear N)
  | .insert i pos val => update s i (·.insert N pos val)
  | .insertFill i pos count val => update s i (·.insertFill N pos count val)
  | .insertRange i pos xs => update s i (·.insertRange N pos xs)
  | .erase i first last => update s i (·.erase N first last)
  | .pushBack i val => update s i (·.pushBack N val)
  | .popBack i => update s i (·.popBack N)
  | .swap i j => swapAt s i j
  | .copyAssign i j => do
    -- `operator=(const prevector &other)`: nothing when `other` is this vector,
    -- else `assign(other.begin(), other.end())`
    let q ← s[j]?
    if i = j then update s i pure
    else update s i fun p => do p.assignCells N (← q.cells N)
  | .moveAssign i j => swapAt s i j
  | .write i pos val => update s i (·.write N pos val)

end program

/-- The elements of list `i` of the store. -/
def elemsAt (s : List (List T)) (i : Nat) : List T := s.getD i []

/-- A call is valid on a store of lists when its indices and positions are
in range and every size it produces is below `2^31`. -/
def Call.Valid (s : List (List T)) : Call T → Prop
  | .make => True
  | .makeSize n => n < 2 ^ 31
  | .makeFill n _ => n < 2 ^ 31
  | .makeRange xs => xs.length < 2 ^ 31
  | .makeCopy j => j < s.length
  | .makeMove j => j < s.length
  | .assign i n _ => i < s.length ∧ n < 2 ^ 31
  | .assignRange i xs => i < s.length ∧ xs.length < 2 ^ 31
  | .resize i n => i < s.length ∧ n < 2 ^ 31
  | .reserve i n => i < s.length ∧ n < 2 ^ 31
  | .shrinkToFit i => i < s.length
  | .clear i => i < s.length
  | .insert i pos _ => i < s.length ∧ pos ≤ (elemsAt s i).length ∧ (elemsAt s i).length + 1 < 2 ^ 31
  | .insertFill i pos count _ =>
    i < s.length ∧ pos ≤ (elemsAt s i).length ∧ (elemsAt s i).length + count < 2 ^ 31
  | .insertRange i pos xs =>
    i < s.length ∧ pos ≤ (elemsAt s i).length ∧ (elemsAt s i).length + xs.length < 2 ^ 31
  | .erase i first last => i < s.length ∧ first ≤ last ∧ last ≤ (elemsAt s i).length
  | .pushBack i _ => i < s.length ∧ (elemsAt s i).length + 1 < 2 ^ 31
  | .popBack i => i < s.length ∧ 0 < (elemsAt s i).length
  | .swap i j => i < s.length ∧ j < s.length
  | .copyAssign i j => i < s.length ∧ j < s.length
  | .moveAssign i j => i < s.length ∧ j < s.length
  | .write i pos _ => i < s.length ∧ pos < (elemsAt s i).length

instance instDecidableValid (s : List (List T)) : (c : Call T) → Decidable (c.Valid s)
  | .make => instDecidableTrue
  | .makeSize n | .makeFill n _ => inferInstanceAs (Decidable (n < 2 ^ 31))
  | .makeRange xs => inferInstanceAs (Decidable (xs.length < 2 ^ 31))
  | .makeCopy j | .makeMove j => inferInstanceAs (Decidable (j < s.length))
  | .assign i n _ | .resize i n | .reserve i n => inferInstanceAs (Decidable (i < s.length ∧ n < 2 ^ 31))
  | .assignRange i xs => inferInstanceAs (Decidable (i < s.length ∧ xs.length < 2 ^ 31))
  | .shrinkToFit i | .clear i => inferInstanceAs (Decidable (i < s.length))
  | .insert i pos _ =>
    inferInstanceAs (Decidable (i < s.length ∧ pos ≤ (elemsAt s i).length ∧ (elemsAt s i).length + 1 < 2 ^ 31))
  | .insertFill i pos count _ =>
    inferInstanceAs (Decidable (i < s.length ∧ pos ≤ (elemsAt s i).length ∧ (elemsAt s i).length + count < 2 ^ 31))
  | .insertRange i pos xs =>
    inferInstanceAs
      (Decidable (i < s.length ∧ pos ≤ (elemsAt s i).length ∧ (elemsAt s i).length + xs.length < 2 ^ 31))
  | .erase i first last => inferInstanceAs (Decidable (i < s.length ∧ first ≤ last ∧ last ≤ (elemsAt s i).length))
  | .pushBack i _ => inferInstanceAs (Decidable (i < s.length ∧ (elemsAt s i).length + 1 < 2 ^ 31))
  | .popBack i => inferInstanceAs (Decidable (i < s.length ∧ 0 < (elemsAt s i).length))
  | .swap i j | .copyAssign i j | .moveAssign i j => inferInstanceAs (Decidable (i < s.length ∧ j < s.length))
  | .write i pos _ => inferInstanceAs (Decidable (i < s.length ∧ pos < (elemsAt s i).length))

/-! ## One step -/

section step

variable {N : Nat} {s : List (Prevector T)} {a : List (List T)}

/-- Vector `i` of a related store. -/
theorem Store.get (hR : List.Forall₂ (Repr N) s a) {i : Nat} (hi : i < a.length) :
    ∃ p, s[i]? = some p ∧ Repr N p (elemsAt a i) :=
  forall₂_getD hR [] hi

/-- An operation on vector `i` that refines a list operation keeps the
store related. -/
theorem Store.update (hR : List.Forall₂ (Repr N) s a) {i : Nat} (hi : i < a.length)
    {f : Prevector T → Option (Prevector T)} {ys : List T}
    (hf : ∀ p, Repr N p (elemsAt a i) → ∃ p', f p = some p' ∧ Repr N p' ys) :
    ∃ s', update s i f = some s' ∧ List.Forall₂ (Repr N) s' (a.set i ys) := by
  obtain ⟨p, hp, hr⟩ := Store.get hR hi
  obtain ⟨p', hp', hr'⟩ := hf p hr
  refine ⟨s.set i p', ?_, forall₂_set hR hr' i⟩
  rw [Prevector.update, hp, Option.bind_eq_bind, Option.bind_some, hp', Option.bind_some]
  rfl

/-- A new vector that holds `ys` keeps the store related. -/
theorem Store.push (hR : List.Forall₂ (Repr N) s a) {make : Option (Prevector T)} {ys : List T}
    (h : ∃ p, make = some p ∧ Repr N p ys) : ∃ s', push s make = some s' ∧ List.Forall₂ (Repr N) s' (a ++ [ys]) := by
  obtain ⟨p, hp, hr⟩ := h
  exact ⟨s ++ [p], by rw [Prevector.push, hp, Option.bind_eq_bind, Option.bind_some]; rfl,
    List.rel_append hR (List.Forall₂.cons hr List.Forall₂.nil)⟩

/-- `swap` of two vectors of a related store. -/
theorem Store.swapAt (hR : List.Forall₂ (Repr N) s a) {i j : Nat} (hi : i < a.length) (hj : j < a.length) :
    ∃ s', swapAt s i j = some s' ∧
      List.Forall₂ (Repr N) s' ((a.set i (elemsAt a j)).set j (elemsAt a i)) := by
  obtain ⟨p, hp, hrp⟩ := Store.get hR hi
  obtain ⟨q, hq, hrq⟩ := Store.get hR hj
  refine ⟨(s.set i q).set j p, ?_, forall₂_set (forall₂_set hR hrq i) hrp j⟩
  rw [Prevector.swapAt, hp, hq]
  rfl

variable [Inhabited T]

end step

/-! ## Whole programs -/

end Prevector

end Membercoin
