import Mathlib

/-!
# Ancestors in a forest of parent links

A forest is given by a partial parent map; `up parent b n` is the `n`-th
ancestor of `b`. With a height that drops by one along each parent link,
the ancestors of a node are told apart by their heights, and any two of them
are ancestors of one another in height order. A predicate that is inherited
from parent to child holds on a final segment of every chain, whose lowest
node (`IsLowest`) is then unique among the ancestors of any node.
-/

namespace Forest

variable {B : Type} (parent : B → Option B)

/-- The `n`-th ancestor. -/
def up : B → Nat → Option B
  | b, 0 => some b
  | b, n + 1 => (parent b).bind fun p => up p n

/-- `a` is `b` or one of its ancestors. -/
def IsAncestor (a b : B) : Prop := ∃ n, up parent b n = some a

/-- `a` satisfies `P` and its parent, if any, does not. -/
def IsLowest (P : B → Bool) (a : B) : Prop := P a = true ∧ ∀ p, parent a = some p → P p = false

variable {parent}

@[simp] theorem up_zero (b : B) : up parent b 0 = some b := rfl

theorem up_succ (b : B) (n : Nat) : up parent b (n + 1) = (parent b).bind fun p => up parent p n :=
  rfl

theorem up_add (b : B) (m n : Nat) :
    up parent b (m + n) = (up parent b m).bind fun a => up parent a n := by
  induction m generalizing b with
  | zero => simp
  | succ m ih =>
    rw [show m + 1 + n = (m + n) + 1 by omega, up_succ, up_succ, Option.bind_assoc]
    congr 1
    funext p
    exact ih p

theorem IsAncestor.refl (b : B) : IsAncestor parent b b := ⟨0, rfl⟩

theorem IsAncestor.trans {a b c : B} (hab : IsAncestor parent a b) (hbc : IsAncestor parent b c) :
    IsAncestor parent a c := by
  obtain ⟨m, hm⟩ := hbc
  obtain ⟨n, hn⟩ := hab
  exact ⟨m + n, by rw [up_add, hm, Option.bind_some, hn]⟩

theorem IsAncestor.of_parent {b p : B} (h : parent b = some p) : IsAncestor parent p b :=
  ⟨1, by rw [up_succ, h, Option.bind_some, up_zero]⟩

/-- An ancestor other than the node itself is an ancestor of its parent. -/
theorem IsAncestor.parent_of_ne {a b : B} (h : IsAncestor parent a b) (hne : a ≠ b) :
    ∃ p, parent b = some p ∧ IsAncestor parent a p := by
  obtain ⟨n, hn⟩ := h
  cases n with
  | zero =>
    simp only [up_zero, Option.some.injEq] at hn
    exact absurd hn.symm hne
  | succ n =>
    rw [up_succ] at hn
    cases hp : parent b with
    | none =>
      rw [hp] at hn
      cases hn
    | some p =>
      rw [hp, Option.bind_some] at hn
      exact ⟨p, rfl, n, hn⟩

/-- A value that does not grow from a node to its parent does not grow from a
node to any ancestor. -/
theorem IsAncestor.le_of_parent_le {α : Type} [Preorder α] {f : B → α}
    (hmono : ∀ b p, parent b = some p → f p ≤ f b) {a b : B} (h : IsAncestor parent a b) :
    f a ≤ f b := by
  obtain ⟨n, hn⟩ := h
  induction n generalizing b with
  | zero =>
    cases hn
    exact le_rfl
  | succ n ih =>
    rw [up_succ] at hn
    cases hp : parent b with
    | none =>
      rw [hp] at hn
      cases hn
    | some p =>
      rw [hp, Option.bind_some] at hn
      exact le_trans (ih hn) (hmono b p hp)

section height

variable {height : B → Nat}
variable (hparent : ∀ b p, parent b = some p → height p + 1 = height b)
include hparent

theorem height_of_up {b a : B} {n : Nat} (h : up parent b n = some a) : height a + n = height b := by
  induction n generalizing b with
  | zero =>
    simp only [up_zero, Option.some.injEq] at h
    rw [h, Nat.add_zero]
  | succ n ih =>
    rw [up_succ] at h
    cases hp : parent b with
    | none =>
      rw [hp] at h
      cases h
    | some p =>
      rw [hp, Option.bind_some] at h
      have := hparent b p hp
      have := ih h
      omega

theorem IsAncestor.height_le {a b : B} (h : IsAncestor parent a b) : height a ≤ height b := by
  obtain ⟨n, hn⟩ := h
  have := height_of_up hparent hn
  omega

/-- Two ancestors of a node at the same height are the same node. -/
theorem IsAncestor.eq_of_height_eq {a a' b : B} (h : IsAncestor parent a b) (h' : IsAncestor parent a' b)
    (heq : height a = height a') : a = a' := by
  obtain ⟨n, hn⟩ := h
  obtain ⟨n', hn'⟩ := h'
  have hlen : n = n' := by
    have := height_of_up hparent hn
    have := height_of_up hparent hn'
    omega
  rw [hlen, hn'] at hn
  exact (Option.some.inj hn).symm

variable (hroot : ∀ b, parent b = none → height b = 0)
include hroot

theorem up_isSome {b : B} {n : Nat} (hn : n ≤ height b) : ∃ a, up parent b n = some a := by
  induction n generalizing b with
  | zero => exact ⟨b, rfl⟩
  | succ n ih =>
    cases hp : parent b with
    | none =>
      have := hroot b hp
      omega
    | some p =>
      have := hparent b p hp
      rw [up_succ, hp, Option.bind_some]
      exact ih (by omega)

/-- Of two ancestors of a node, the lower is an ancestor of the higher. -/
theorem IsAncestor.of_height_le {a b c : B} (hac : IsAncestor parent a c) (hbc : IsAncestor parent b c)
    (hle : height a ≤ height b) : IsAncestor parent a b := by
  obtain ⟨x, hx⟩ := up_isSome hparent hroot (show height b - height a ≤ height b by omega)
  have hxb : IsAncestor parent x b := ⟨_, hx⟩
  have hxc : IsAncestor parent x c := hxb.trans hbc
  have hheight : height x = height a := by
    have := height_of_up hparent hx
    omega
  rw [← IsAncestor.eq_of_height_eq hparent hxc hac hheight]
  exact hxb

end height

section lowest

variable {P : B → Bool} (hmono : ∀ b p, parent b = some p → P p = true → P b = true)
include hmono

/-- An inherited predicate that holds at an ancestor holds at the node. -/
theorem IsAncestor.inherit {a b : B} (h : IsAncestor parent a b) (ha : P a = true) : P b = true := by
  obtain ⟨n, hn⟩ := h
  induction n generalizing b with
  | zero =>
    simp only [up_zero, Option.some.injEq] at hn
    rw [hn]
    exact ha
  | succ n ih =>
    rw [up_succ] at hn
    cases hp : parent b with
    | none =>
      rw [hp] at hn
      cases hn
    | some p =>
      rw [hp, Option.bind_some] at hn
      exact hmono b p hp (ih hn)

/-- Below the lowest node of an inherited predicate it does not hold. -/
theorem IsLowest.eq_of_isAncestor {a e : B} (ha : IsLowest parent P a) (he : IsAncestor parent e a)
    (hPe : P e = true) : e = a := by
  by_contra hne
  obtain ⟨p, hp, hep⟩ := he.parent_of_ne hne
  have := ha.2 p hp
  rw [hep.inherit hmono hPe] at this
  cases this

variable {height : B → Nat} (hparent : ∀ b p, parent b = some p → height p + 1 = height b)
  (hroot : ∀ b, parent b = none → height b = 0)
include hparent hroot

/-- Every node of the predicate among the ancestors of `c` lies above its
lowest one there. -/
theorem IsLowest.isAncestor {a e c : B} (ha : IsLowest parent P a) (hac : IsAncestor parent a c)
    (hec : IsAncestor parent e c) (hPe : P e = true) : IsAncestor parent a e := by
  rcases le_total (height a) (height e) with hle | hle
  · exact hac.of_height_le hparent hroot hec hle
  · have hea := hec.of_height_le hparent hroot hac hle
    rw [ha.eq_of_isAncestor hmono hea hPe]
    exact IsAncestor.refl a

/-- Among the ancestors of a node the lowest node of an inherited predicate
is unique. -/
theorem IsLowest.unique {a a' c : B} (ha : IsLowest parent P a) (ha' : IsLowest parent P a')
    (hac : IsAncestor parent a c) (hac' : IsAncestor parent a' c) : a = a' :=
  ha'.eq_of_isAncestor hmono (ha.isAncestor hmono hparent hroot hac hac' ha'.1) ha.1

end lowest

end Forest
