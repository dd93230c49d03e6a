import Mathlib

/-!
# Bracketed sequences

A sequence of tokens, some of which open a bracket, some close one and some
(like an `else`) may only stand inside an open bracket. `Brackets.OpenPrefix`
says that a sequence can be read from left to right without ever closing a
bracket that is not open or meeting an inner token outside every bracket, and
that `d` brackets are left open at its end; `Brackets.Balanced` is the case
`d = 0`. The `snoc` rules say how reading one more token changes `d`, which is
how a machine that keeps a stack of open brackets is shown to read only
bracketed sequences.
-/

namespace Brackets

variable {α : Type} (isOpen isClose isInner : α → Bool)

/-- `l` leaves `d` brackets open: no prefix closes more brackets than it
opens, every inner token stands inside an open bracket, and the opens exceed
the closes by `d`. -/
structure OpenPrefix (l : List α) (d : Nat) : Prop where
  closes_le : ∀ pre suf, l = pre ++ suf → pre.countP isClose ≤ pre.countP isOpen
  inner_inside : ∀ pre a suf, l = pre ++ a :: suf → isInner a = true →
    pre.countP isClose < pre.countP isOpen
  depth_eq : l.countP isOpen = l.countP isClose + d

/-- Every prefix closes at most as many brackets as it opens, every inner
token stands inside an open bracket, and all brackets are closed at the end. -/
def Balanced (l : List α) : Prop := OpenPrefix isOpen isClose isInner l 0

/-- A counter that reads one token at depth `d`: the depth after it, or
`none` where the token would close a bracket or stand outside every bracket
while none is open. Opening tokens are tested first. -/
def depthStep (d : Nat) (a : α) : Option Nat :=
  if isOpen a then some (d + 1)
  else if isClose a then (if 0 < d then some (d - 1) else none)
  else if isInner a then (if 0 < d then some d else none)
  else some d

variable {isOpen isClose isInner}

theorem OpenPrefix.nil : OpenPrefix isOpen isClose isInner [] 0 where
  closes_le pre suf h := by
    rw [List.nil_eq_append_iff.mp h |>.1]
    simp
  inner_inside pre a suf h := by simp at h
  depth_eq := by simp

/-- The prefixes of `l ++ [a]` are `l ++ [a]` itself and the prefixes of `l`. -/
theorem eq_append_or_prefix_of_append_singleton {l pre suf : List α} {a : α}
    (h : l ++ [a] = pre ++ suf) : pre = l ++ [a] ∨ ∃ suf', l = pre ++ suf' := by
  rcases List.eq_nil_or_concat suf with rfl | ⟨suf', b, rfl⟩
  · exact .inl (by simpa using h.symm)
  · rw [List.concat_eq_append, ← List.append_assoc] at h
    obtain ⟨hl, -⟩ := List.append_inj' h rfl
    exact .inr ⟨suf', hl⟩

/-- A token of `l ++ [a]` is `a` itself, after all of `l`, or a token of `l`. -/
theorem eq_last_or_mem_of_append_singleton {l pre suf : List α} {a b : α}
    (h : l ++ [a] = pre ++ b :: suf) : (pre = l ∧ b = a) ∨ ∃ suf', l = pre ++ b :: suf' := by
  rcases List.eq_nil_or_concat suf with rfl | ⟨suf', c, rfl⟩
  · have h' : l ++ [a] = pre ++ [b] := h
    obtain ⟨hl, hb⟩ := List.append_inj' h' rfl
    exact .inl ⟨hl.symm, (List.singleton_inj.mp hb).symm⟩
  · have h' : l ++ [a] = (pre ++ b :: suf') ++ [c] := by simpa using h
    obtain ⟨hl, -⟩ := List.append_inj' h' rfl
    exact .inr ⟨suf', hl⟩

section snoc

variable {l : List α} {d : Nat} {a : α}

/-- The common part of the `snoc` rules: the new token keeps the closes at
most the opens, and stands inside a bracket if it is an inner token. -/
theorem OpenPrefix.snoc_of (h : OpenPrefix isOpen isClose isInner l d) {d' : Nat}
    (hdepth : (l ++ [a]).countP isOpen = (l ++ [a]).countP isClose + d')
    (hinner : isInner a = true → l.countP isClose < l.countP isOpen) :
    OpenPrefix isOpen isClose isInner (l ++ [a]) d' where
  closes_le pre suf hsplit := by
    rcases eq_append_or_prefix_of_append_singleton hsplit with rfl | ⟨suf', hl⟩
    · omega
    · exact h.closes_le pre suf' hl
  inner_inside pre b suf hsplit hb := by
    rcases eq_last_or_mem_of_append_singleton hsplit with ⟨rfl, rfl⟩ | ⟨suf', hl⟩
    · exact hinner hb
    · exact h.inner_inside pre b suf' hl hb
  depth_eq := hdepth

/-- Reading an opening token opens one more bracket. -/
theorem OpenPrefix.snoc_open (h : OpenPrefix isOpen isClose isInner l d)
    (ho : isOpen a = true) (hc : isClose a = false) (hi : isInner a = false) :
    OpenPrefix isOpen isClose isInner (l ++ [a]) (d + 1) := by
  refine h.snoc_of ?_ (by simp [hi])
  have hdepth := h.depth_eq
  simp only [List.countP_append, List.countP_singleton, ho, hc, if_true, Bool.false_eq_true,
    if_false]
  omega

/-- Reading a closing token inside an open bracket closes it. -/
theorem OpenPrefix.snoc_close (h : OpenPrefix isOpen isClose isInner l d) (hd : 0 < d)
    (ho : isOpen a = false) (hc : isClose a = true) (hi : isInner a = false) :
    OpenPrefix isOpen isClose isInner (l ++ [a]) (d - 1) := by
  refine h.snoc_of ?_ (by simp [hi])
  have hdepth := h.depth_eq
  simp only [List.countP_append, List.countP_singleton, ho, hc, if_true, Bool.false_eq_true,
    if_false]
  omega

/-- Reading an inner token inside an open bracket changes nothing. -/
theorem OpenPrefix.snoc_inner (h : OpenPrefix isOpen isClose isInner l d) (hd : 0 < d)
    (ho : isOpen a = false) (hc : isClose a = false) :
    OpenPrefix isOpen isClose isInner (l ++ [a]) d := by
  have hdepth := h.depth_eq
  refine h.snoc_of ?_ fun _ => by omega
  simp only [List.countP_append, List.countP_singleton, ho, hc, Bool.false_eq_true, if_false]
  omega

/-- Reading any other token changes nothing. -/
theorem OpenPrefix.snoc_other (h : OpenPrefix isOpen isClose isInner l d)
    (ho : isOpen a = false) (hc : isClose a = false) (hi : isInner a = false) :
    OpenPrefix isOpen isClose isInner (l ++ [a]) d := by
  refine h.snoc_of ?_ (by simp [hi])
  have hdepth := h.depth_eq
  simp only [List.countP_append, List.countP_singleton, ho, hc, Bool.false_eq_true, if_false]
  omega

theorem depthStep_of_open (ho : isOpen a = true) :
    depthStep isOpen isClose isInner d a = some (d + 1) := by
  simp [depthStep, ho]

theorem depthStep_of_close (ho : isOpen a = false) (hc : isClose a = true) (hd : 0 < d) :
    depthStep isOpen isClose isInner d a = some (d - 1) := by
  simp [depthStep, ho, hc, hd]

theorem depthStep_of_inner (ho : isOpen a = false) (hc : isClose a = false)
    (hi : isInner a = true) (hd : 0 < d) : depthStep isOpen isClose isInner d a = some d := by
  simp [depthStep, ho, hc, hi, hd]

/-- A token of none of the three kinds leaves the depth alone. -/
theorem depthStep_of_other (ho : isOpen a = false) (hc : isClose a = false)
    (hi : isInner a = false) : depthStep isOpen isClose isInner d a = some d := by
  simp [depthStep, ho, hc, hi]

section disjoint

variable (hoc : ∀ a, isOpen a = true → isClose a = false)
  (hoi : ∀ a, isOpen a = true → isInner a = false)
  (hci : ∀ a, isClose a = true → isInner a = false)
include hoc hoi hci

/-- Whatever the counter accepts keeps the sequence bracketed, at the
depth the counter computes. -/
theorem OpenPrefix.snoc_depthStep (h : OpenPrefix isOpen isClose isInner l d) {d' : Nat}
    (hstep : depthStep isOpen isClose isInner d a = some d') :
    OpenPrefix isOpen isClose isInner (l ++ [a]) d' := by
  unfold depthStep at hstep
  by_cases ho : isOpen a = true
  · rw [if_pos ho, Option.some_inj] at hstep
    subst hstep
    exact h.snoc_open ho (hoc a ho) (hoi a ho)
  rw [if_neg ho] at hstep
  rw [Bool.not_eq_true] at ho
  by_cases hc : isClose a = true
  · rw [if_pos hc] at hstep
    split_ifs at hstep with hd
    cases hstep
    exact h.snoc_close hd ho hc (hci a hc)
  rw [if_neg hc] at hstep
  rw [Bool.not_eq_true] at hc
  by_cases hi : isInner a = true
  · rw [if_pos hi] at hstep
    split_ifs at hstep with hd
    cases hstep
    exact h.snoc_inner hd ho hc
  rw [if_neg hi, Option.some_inj] at hstep
  subst hstep
  exact h.snoc_other ho hc (Bool.not_eq_true _ ▸ hi)

end disjoint

end snoc

end Brackets
