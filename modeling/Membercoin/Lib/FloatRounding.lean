import Mathlib

/-!
# Converting a natural number to a binary floating-point format

A binary float with an `m`-bit significand holds a natural number `p` exactly
when `p` has at most `m` significant bits. Otherwise the conversion keeps the
leading `m` bits and rounds the `s` bits below them to nearest, with ties to
even. For the integers a program converts, the exponent range is never the
limit, so the conversion is a function on `Nat`: `roundNearestEven m p` is
the integer the float holds.

A value with at most `m` significant bits, `q * 2 ^ t` with `q < 2 ^ m`,
converts exactly (`roundNearestEven_mul_two_pow`).
-/

namespace FloatRounding

/-- The value of `p` converted to a binary float with an `m`-bit significand:
`s` is the number of bits below the leading `m`, `q` what is kept and `r` what
is rounded away. -/
def roundNearestEven (m p : Nat) : Nat :=
  let s := Nat.log2 p + 1 - m
  let q := p / 2 ^ s
  let r := p % 2 ^ s
  if 2 * r < 2 ^ s ∨ (2 * r = 2 ^ s ∧ q % 2 = 0) then q * 2 ^ s else (q + 1) * 2 ^ s

/-- When nothing is rounded away, the conversion is exact. -/
theorem roundNearestEven_of_dvd {m p : Nat} (h : 2 ^ (Nat.log2 p + 1 - m) ∣ p) :
    roundNearestEven m p = p := by
  have hr : p % 2 ^ (Nat.log2 p + 1 - m) = 0 := Nat.mod_eq_zero_of_dvd h
  have hpos : 0 < 2 ^ (Nat.log2 p + 1 - m) := Nat.two_pow_pos _
  simp only [roundNearestEven, hr, Nat.mul_zero, hpos, true_or, if_true]
  exact Nat.div_mul_cancel h

/-- A value with at most `m` significant bits converts exactly. -/
theorem roundNearestEven_mul_two_pow {m q : Nat} (hq : q < 2 ^ m) (t : Nat) :
    roundNearestEven m (q * 2 ^ t) = q * 2 ^ t := by
  apply roundNearestEven_of_dvd
  rcases Nat.eq_zero_or_pos q with rfl | hpos
  · simp
  · have hne : q * 2 ^ t ≠ 0 := Nat.mul_ne_zero (by omega) (Nat.two_pow_pos t).ne'
    have hlt : q * 2 ^ t < 2 ^ (m + t) := by
      rw [Nat.pow_add]
      exact Nat.mul_lt_mul_of_pos_right hq (Nat.two_pow_pos t)
    have hlog : Nat.log2 (q * 2 ^ t) < m + t := (Nat.log2_lt hne).mpr hlt
    apply Nat.dvd_trans (Nat.pow_dvd_pow 2 (by omega : Nat.log2 (q * 2 ^ t) + 1 - m ≤ t))
    exact Nat.dvd_mul_left _ _

end FloatRounding
