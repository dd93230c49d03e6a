import Mathlib

/-!
# Numbers held in limbs of `w` bits

A list of limbs, least significant first, each below `2 ^ w`, holds the number
`Nat.ofDigits (2 ^ w) l`. Bit `t` of limb `j` is bit `w * j + t` of the number
(`testBit_ofDigits`), so a list of limbs is pinned down by the bits it should
hold (`ofDigits_eq_mod_of_testBit`): this is how a loop that fills limbs one
by one, with shifts, masks and carries, is compared with the number it
computes. A carry chain peels one limb off the modulus at a time
(`mod_two_pow_mul_succ`).
-/

namespace Limbs

/-- Every limb fits in `w` bits. -/
def Fits (w : Nat) (l : List Nat) : Prop := ∀ d ∈ l, d < 2 ^ w

variable {w : Nat}

theorem Fits.cons {d : Nat} {l : List Nat} (hd : d < 2 ^ w) (hl : Fits w l) : Fits w (d :: l) := by
  intro x hx
  rcases List.mem_cons.mp hx with rfl | hx
  · exact hd
  · exact hl x hx

theorem Fits.tail {d : Nat} {l : List Nat} (h : Fits w (d :: l)) : Fits w l :=
  fun x hx => h x (List.mem_cons_of_mem d hx)

theorem Fits.head {d : Nat} {l : List Nat} (h : Fits w (d :: l)) : d < 2 ^ w :=
  h d List.mem_cons_self

theorem Fits.append {l l' : List Nat} (h : Fits w l) (h' : Fits w l') : Fits w (l ++ l') := by
  intro x hx
  rcases List.mem_append.mp hx with hx | hx
  · exact h x hx
  · exact h' x hx

theorem Fits.take {l : List Nat} (h : Fits w l) (n : Nat) : Fits w (l.take n) :=
  fun x hx => h x (List.mem_of_mem_take hx)

theorem Fits.drop {l : List Nat} (h : Fits w l) (n : Nat) : Fits w (l.drop n) :=
  fun x hx => h x (List.mem_of_mem_drop hx)

theorem fits_replicate_zero (n : Nat) : Fits w (List.replicate n 0) := by
  intro x hx
  rw [(List.mem_replicate.mp hx).2]
  exact Nat.two_pow_pos w

theorem ofDigits_cons_two_pow (d : Nat) (l : List Nat) :
    Nat.ofDigits (2 ^ w) (d :: l) = 2 ^ w * Nat.ofDigits (2 ^ w) l + d := by
  rw [Nat.ofDigits_cons]
  omega

/-- The number held in `n` limbs is below `2 ^ (w * n)`. -/
theorem ofDigits_lt {l : List Nat} (hl : Fits w l) : Nat.ofDigits (2 ^ w) l < 2 ^ (w * l.length) := by
  induction l with
  | nil => simp
  | cons d l ih =>
    have hd := hl.head
    have hrest := ih hl.tail
    rw [ofDigits_cons_two_pow, List.length_cons, Nat.mul_succ, Nat.pow_add]
    calc 2 ^ w * Nat.ofDigits (2 ^ w) l + d < 2 ^ w * Nat.ofDigits (2 ^ w) l + 2 ^ w := by omega
      _ = 2 ^ w * (Nat.ofDigits (2 ^ w) l + 1) := by ring
      _ ≤ 2 ^ w * 2 ^ (w * l.length) := Nat.mul_le_mul_left _ hrest
      _ = 2 ^ (w * l.length) * 2 ^ w := Nat.mul_comm _ _

/-- Bit `t` of limb `j` is bit `w * j + t` of the number. -/
theorem testBit_ofDigits : ∀ {l : List Nat}, Fits w l → ∀ (j : Nat) {t : Nat}, t < w →
    (Nat.ofDigits (2 ^ w) l).testBit (w * j + t) = (l.getD j 0).testBit t
  | [], _, j, t, _ => by simp
  | d :: l, hl, j, t, ht => by
    rw [ofDigits_cons_two_pow, Nat.testBit_two_pow_mul_add _ hl.head]
    cases j with
    | zero => simp [ht]
    | succ j =>
      have hlt : ¬ w * (j + 1) + t < w := by
        rw [Nat.mul_succ]
        omega
      rw [if_neg hlt, show w * (j + 1) + t - w = w * j + t by rw [Nat.mul_succ]; omega,
        testBit_ofDigits hl.tail j ht]
      rfl

/-- The bits of a number below `w * n` come from its limbs. -/
theorem testBit_ofDigits_of_lt (hw : 0 < w) {l : List Nat} (hl : Fits w l) (i : Nat) :
    (Nat.ofDigits (2 ^ w) l).testBit i = (l.getD (i / w) 0).testBit (i % w) := by
  conv_lhs => rw [← Nat.div_add_mod i w]
  exact testBit_ofDigits hl (i / w) (Nat.mod_lt i hw)

/-- Limbs are determined by the bits they are to hold: if limb `j` holds bits
`w * j` to `w * j + w - 1` of `V`, the limbs hold `V` modulo `2 ^ (w * n)`. -/
theorem ofDigits_eq_mod_of_testBit (hw : 0 < w) {l : List Nat} (hl : Fits w l) {V : Nat}
    (h : ∀ j < l.length, ∀ t < w, (l.getD j 0).testBit t = V.testBit (w * j + t)) :
    Nat.ofDigits (2 ^ w) l = V % 2 ^ (w * l.length) := by
  apply Nat.eq_of_testBit_eq
  intro i
  have hi : w * (i / w) + i % w = i := Nat.div_add_mod i w
  rw [Nat.testBit_mod_two_pow, testBit_ofDigits_of_lt hw hl]
  by_cases hj : i / w < l.length
  · have hlt : i < w * l.length := by
      have := Nat.mod_lt i hw
      calc i = w * (i / w) + i % w := hi.symm
        _ < w * (i / w) + w := by omega
        _ = w * (i / w + 1) := by ring
        _ ≤ w * l.length := Nat.mul_le_mul_left _ hj
    rw [h _ hj _ (Nat.mod_lt i hw), hi, decide_eq_true hlt, Bool.true_and]
  · have hle : w * l.length ≤ i := by
      calc w * l.length ≤ w * (i / w) := Nat.mul_le_mul_left _ (by omega)
        _ ≤ i := Nat.mul_div_le i w
    rw [List.getD_eq_default _ _ (by omega), Nat.zero_testBit, decide_eq_false (by omega), Bool.false_and]

/-- One step of a carry chain: the low limb of `x` and the rest of `x` below
the remaining `n` limbs. -/
theorem mod_two_pow_mul_succ (x n : Nat) :
    x % 2 ^ (w * (n + 1)) = x % 2 ^ w + 2 ^ w * (x / 2 ^ w % 2 ^ (w * n)) := by
  rw [Nat.mul_succ, Nat.pow_add, Nat.mul_comm (2 ^ (w * n)), Nat.mod_mul]

/-- A number below `K` placed under `K * Y`, taken modulo `K * M`: the low part
stays and the high part is reduced modulo `M`. -/
theorem add_mul_mod_mul {T K : Nat} (hT : T < K) (Y M : Nat) : (T + K * Y) % (K * M) = T + K * (Y % M) := by
  have hK : 0 < K := Nat.lt_of_le_of_lt (Nat.zero_le T) hT
  rw [Nat.mod_mul, Nat.add_mul_mod_self_left, Nat.mod_eq_of_lt hT, Nat.add_mul_div_left _ _ hK,
    Nat.div_eq_of_lt hT, Nat.zero_add]

/-- The rule for a loop `for (i = 0; i < n; i++)`, written as a fold over
`List.range n`: an invariant of the number of rounds run holds at the end. -/
theorem foldl_range_invariant {β : Type} (f : β → Nat → β) (P : Nat → β → Prop) {n : Nat} {init : β}
    (h0 : P 0 init) (hstep : ∀ j r, j < n → P j r → P (j + 1) (f r j)) :
    P n ((List.range n).foldl f init) := by
  induction n with
  | zero => exact h0
  | succ n ih =>
    rw [List.range_succ, List.foldl_append, List.foldl_cons, List.foldl_nil]
    exact hstep n _ (Nat.lt_succ_self n) (ih fun j r hj => hstep j r (Nat.lt_succ_of_lt hj))

/-- The top limb decides a comparison: below `K * y` sits everything with a
smaller top limb. -/
theorem add_mul_lt_add_mul {A B K x y : Nat} (hA : A < K) (hxy : x < y) : A + K * x < B + K * y := by
  have h : K * (x + 1) ≤ K * y := Nat.mul_le_mul_left K hxy
  rw [Nat.mul_succ] at h
  omega

/-- The bit length of a number with a nonzero top limb `x` above `n` bits. -/
theorem size_add_two_pow_mul {A x n : Nat} (hA : A < 2 ^ n) (hx : x ≠ 0) : (A + 2 ^ n * x).size = n + x.size := by
  have hpos : 0 < x.size := Nat.size_pos.mpr (Nat.pos_of_ne_zero hx)
  apply le_antisymm
  · rw [Nat.size_le, Nat.pow_add]
    have h : 2 ^ n * (x + 1) ≤ 2 ^ n * 2 ^ x.size := Nat.mul_le_mul_left _ (Nat.lt_size_self x)
    rw [Nat.mul_succ] at h
    omega
  · have htop : 2 ^ (x.size - 1) ≤ x := Nat.lt_size.mp (by omega)
    have h : 2 ^ n * 2 ^ (x.size - 1) ≤ 2 ^ n * x := Nat.mul_le_mul_left _ htop
    rw [← Nat.pow_add] at h
    have hlt : n + x.size - 1 < (A + 2 ^ n * x).size := Nat.lt_size.mpr (by rw [show n + x.size - 1 = n + (x.size - 1) by omega]; omega)
    omega

theorem natCast_add_sub_mod {a b M : Nat} (hb : b ≤ M) :
    (((a + (M - b)) % M : Nat) : Int) = ((a : Int) - b) % M := by
  rw [Int.natCast_emod, Nat.cast_add, Nat.cast_sub hb, show (a : Int) + ((M : Int) - b) = (a - b) + M by ring,
    Int.add_emod_right]

theorem mod_two_pow_eq_zero_of_succ {q s : Nat} (h : q % 2 ^ (s + 1) = 0) : q % 2 ^ s = 0 :=
  Nat.mod_eq_zero_of_dvd (Nat.dvd_trans (Nat.pow_dvd_pow 2 (Nat.le_succ s)) (Nat.dvd_of_mod_eq_zero h))

end Limbs
