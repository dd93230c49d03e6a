import Mathlib

/-!
# Binary counters

A counter `c` that is advanced by `2^ℓ` carries through the run of one bits
starting at bit `ℓ`: those bits become zero, the first zero bit above them
becomes one, and every bit above that is left alone. The lemmas below state
this through quotients by powers of two (bit `l` of `c` is `c / 2^l % 2`),
the form in which constant-space tree computations index their levels.
-/

namespace BinaryCounter

/-- The test of bit `l` written with a mask, as C code writes it. -/
theorem and_one_shiftLeft_eq_zero_iff (c l : Nat) : c &&& 1 <<< l = 0 ↔ c / 2 ^ l % 2 = 0 := by
  rw [Nat.one_shiftLeft, Nat.and_two_pow]
  have hpow : 2 ^ l ≠ 0 := (Nat.two_pow_pos l).ne'
  cases hbit : c.testBit l
  · rw [Nat.testBit_eq_decide_div_mod_eq, decide_eq_false_iff_not] at hbit
    simp only [Bool.toNat_false, Nat.zero_mul, true_iff]
    omega
  · rw [Nat.testBit_eq_decide_div_mod_eq, decide_eq_true_iff] at hbit
    simp only [Bool.toNat_true, Nat.one_mul, hpow, false_iff]
    omega

theorem div_two_pow_succ (c l : Nat) : c / 2 ^ (l + 1) = c / 2 ^ l / 2 := by
  rw [Nat.div_div_eq_div_mul, pow_succ]

/-- Dividing by a higher power of two divides the lower quotient further. -/
theorem div_two_pow_of_le {k l : Nat} (hkl : k ≤ l) (c : Nat) :
    c / 2 ^ l = c / 2 ^ k / 2 ^ (l - k) := by
  rw [Nat.div_div_eq_div_mul, ← pow_add, Nat.add_sub_cancel' hkl]

theorem mod_two_pow_succ_eq_zero_iff {c l : Nat} :
    c % 2 ^ (l + 1) = 0 ↔ c % 2 ^ l = 0 ∧ c / 2 ^ l % 2 = 0 := by
  rw [Nat.mod_pow_succ, Nat.add_eq_zero_iff, Nat.mul_eq_zero]
  simp only [(Nat.two_pow_pos l).ne', false_or]

/-- Bits below a power of two that divides `c` are zero. -/
theorem div_two_pow_mod_two_of_lt {c t l : Nat} (h : c % 2 ^ t = 0) (hl : l < t) :
    c / 2 ^ l % 2 = 0 := by
  have hdvd : 2 ^ (l + 1) ∣ c :=
    Nat.dvd_trans (Nat.pow_dvd_pow 2 hl) (Nat.dvd_of_mod_eq_zero h)
  exact (mod_two_pow_succ_eq_zero_iff.1 (Nat.mod_eq_zero_of_dvd hdvd)).2

theorem mod_two_pow_eq_zero_of_le {c t l : Nat} (h : c % 2 ^ t = 0) (hl : l ≤ t) :
    c % 2 ^ l = 0 :=
  Nat.mod_eq_zero_of_dvd (Nat.dvd_trans (Nat.pow_dvd_pow 2 hl) (Nat.dvd_of_mod_eq_zero h))

/-- A count aligned at `level` whose bits from `level` below `t` are zero is
aligned at `t`. -/
theorem mod_two_pow_eq_zero_of_bits {c level t : Nat} (hal : c % 2 ^ level = 0) (hle : level ≤ t)
    (hbits : ∀ l, level ≤ l → l < t → c / 2 ^ l % 2 = 0) : c % 2 ^ t = 0 := by
  induction t with
  | zero =>
    rw [pow_zero, Nat.mod_one]
  | succ t ih =>
    rcases Nat.eq_or_lt_of_le hle with rfl | hlt
    · exact hal
    · have hprev := ih (by omega) (fun l hl hlt' => hbits l hl (by omega))
      exact mod_two_pow_succ_eq_zero_iff.2 ⟨hprev, hbits t (by omega) (by omega)⟩

/-- A multiple of `m` that is less than `m` beyond another multiple is at most it. -/
theorem le_of_sub_lt_of_mod_eq_zero {a b m : Nat} (ha : a % m = 0) (hb : b % m = 0)
    (h : a - m < b) : a ≤ b := by
  obtain ⟨x, rfl⟩ := Nat.dvd_of_mod_eq_zero ha
  obtain ⟨y, rfl⟩ := Nat.dvd_of_mod_eq_zero hb
  rcases Nat.eq_zero_or_pos m with hm | hm
  · subst hm
    simp
  · have hxy : x - 1 < y := by
      rw [← Nat.mul_lt_mul_left hm, Nat.mul_sub_one]
      exact h
    exact Nat.mul_le_mul_left m (by omega)

/-- Adding `2^ℓ` with a carry into bit `l` or above raises the quotient by
`2^l` by one. -/
theorem div_add_two_pow {c ℓ l : Nat} (hℓl : ℓ ≤ l) (h : (c + 2 ^ ℓ) % 2 ^ l = 0) :
    (c + 2 ^ ℓ) / 2 ^ l = c / 2 ^ l + 1 := by
  have hA : 0 < 2 ^ ℓ := Nat.two_pow_pos ℓ
  have hAB : 2 ^ ℓ ≤ 2 ^ l := Nat.pow_le_pow_right (by decide) hℓl
  have hB : 0 < 2 ^ l := Nat.two_pow_pos l
  have hlow : c % 2 ^ l < 2 ^ l := Nat.mod_lt c hB
  have hsplit : c + 2 ^ ℓ = (c % 2 ^ l + 2 ^ ℓ) + 2 ^ l * (c / 2 ^ l) := by
    have := Nat.mod_add_div c (2 ^ l)
    omega
  have hrest : (c % 2 ^ l + 2 ^ ℓ) % 2 ^ l = 0 := by
    rw [hsplit, Nat.add_mul_mod_self_left] at h
    exact h
  have hge : 2 ^ l ≤ c % 2 ^ l + 2 ^ ℓ :=
    Nat.le_of_dvd (by omega) (Nat.dvd_of_mod_eq_zero hrest)
  have hone : (c % 2 ^ l + 2 ^ ℓ) / 2 ^ l = 1 :=
    Nat.div_eq_of_lt_le (by omega) (by omega)
  rw [hsplit, Nat.add_mul_div_left _ _ hB, hone, Nat.add_comm]

/-- Adding its lowest set bit to an aligned counter clears that bit. -/
theorem add_two_pow_mod_two_pow_succ {c l : Nat} (hal : c % 2 ^ l = 0) (hbit : c / 2 ^ l % 2 = 1) :
    (c + 2 ^ l) % 2 ^ (l + 1) = 0 := by
  have hal' : (c + 2 ^ l) % 2 ^ l = 0 := by
    rw [Nat.add_mod_right]
    exact hal
  refine mod_two_pow_succ_eq_zero_iff.2 ⟨hal', ?_⟩
  rw [div_add_two_pow (le_refl l) hal']
  omega

/-- The bits cleared by a carry were one. -/
theorem div_two_pow_mod_two_of_carry {c ℓ l : Nat} (hℓl : ℓ ≤ l)
    (h : (c + 2 ^ ℓ) % 2 ^ (l + 1) = 0) : c / 2 ^ l % 2 = 1 := by
  obtain ⟨hal, hbit⟩ := mod_two_pow_succ_eq_zero_iff.1 h
  rw [div_add_two_pow hℓl hal] at hbit
  omega

/-- Above the bit that a carry sets, the counter's quotients do not change. -/
theorem div_add_two_pow_of_lt {c ℓ t l : Nat} (hℓt : ℓ ≤ t) (htl : t < l)
    (hal : (c + 2 ^ ℓ) % 2 ^ t = 0) (hodd : (c + 2 ^ ℓ) / 2 ^ t % 2 = 1) :
    (c + 2 ^ ℓ) / 2 ^ l = c / 2 ^ l := by
  have hstep := div_add_two_pow hℓt hal
  have hup : (c + 2 ^ ℓ) / 2 ^ (t + 1) = c / 2 ^ (t + 1) := by
    rw [div_two_pow_succ, div_two_pow_succ, hstep]
    rw [hstep] at hodd
    generalize c / 2 ^ t = x at hodd ⊢
    omega
  rw [div_two_pow_of_le htl (c + 2 ^ ℓ), div_two_pow_of_le htl c, hup]

/-- An index one below an odd quotient has the same quotient at every higher
level. -/
theorem div_two_pow_of_eq_pred {p c t l : Nat} (htl : t < l) (hodd : c / 2 ^ t % 2 = 1)
    (hp : p / 2 ^ t = c / 2 ^ t - 1) : p / 2 ^ l = c / 2 ^ l := by
  have hup : p / 2 ^ (t + 1) = c / 2 ^ (t + 1) := by
    rw [div_two_pow_succ, div_two_pow_succ, hp]
    generalize c / 2 ^ t = x at hodd ⊢
    omega
  rw [div_two_pow_of_le htl p, div_two_pow_of_le htl c, hup]

end BinaryCounter
