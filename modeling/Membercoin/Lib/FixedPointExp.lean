import Mathlib

/-!
# Powers of two with a fixed-point exponent

Integer code computes `x₀ * 2 ^ (e / B)` for a fixed-point exponent `e` with
fraction modulus `B` by splitting `e`. The integer part `e / B` becomes a
shift, and the fraction `e % B` selects a factor `F`, a scaled approximation of
`2 ^ (f / B)`. A shift by a signed amount is `shiftBy`, which rounds down.

The result is monotone in `e` (`fixedExp_mono`) when `F` is monotone on the
fractions and its last value is at most twice its first. Then the step from
the largest fraction to the next integer part does not go down.
-/

namespace FixedPointExp

/-- `x` scaled by `2 ^ s`, rounded down. -/
def shiftBy (x : Nat) (s : Int) : Nat :=
  if s ≤ 0 then x >>> (-s).toNat else x <<< s.toNat

theorem shiftBy_of_nonpos {x : Nat} {s : Int} (hs : s ≤ 0) : shiftBy x s = x / 2 ^ (-s).toNat := by
  rw [shiftBy, if_pos hs, Nat.shiftRight_eq_div_pow]

theorem shiftBy_of_pos {x : Nat} {s : Int} (hs : 0 < s) : shiftBy x s = x * 2 ^ s.toNat := by
  rw [shiftBy, if_neg (by omega), Nat.shiftLeft_eq]

theorem shiftBy_mono {x y : Nat} (h : x ≤ y) (s : Int) : shiftBy x s ≤ shiftBy y s := by
  rcases le_or_gt s 0 with hs | hs
  · rw [shiftBy_of_nonpos hs, shiftBy_of_nonpos hs]
    exact Nat.div_le_div_right h
  · rw [shiftBy_of_pos hs, shiftBy_of_pos hs]
    exact Nat.mul_le_mul_right _ h

/-- Doubling before the shift is one more shift. -/
theorem shiftBy_two_mul (x : Nat) (s : Int) : shiftBy (2 * x) s = shiftBy x (s + 1) := by
  rcases lt_or_ge s 0 with hs | hs
  · obtain ⟨k, hk⟩ : ∃ k : Nat, -(s + 1) = k := ⟨(-(s + 1)).toNat, by omega⟩
    rw [shiftBy_of_nonpos (by omega), shiftBy_of_nonpos (by omega),
      show (-s).toNat = k + 1 by omega, show (-(s + 1)).toNat = k by omega, Nat.pow_succ,
      Nat.mul_comm (2 ^ k) 2]
    exact Nat.mul_div_mul_left x (2 ^ k) (by decide)
  · rcases eq_or_lt_of_le hs with h0 | hpos
    · subst h0
      rw [shiftBy_of_nonpos le_rfl, shiftBy_of_pos (by decide)]
      simp [Nat.mul_comm]
    · rw [shiftBy_of_pos hpos, shiftBy_of_pos (by omega), show (s + 1).toNat = s.toNat + 1 by omega,
        Nat.pow_succ]
      ring

/-- `x₀ * 2 ^ (e / B - o)`: the fraction `e % B` selects the factor `F`, and
the integer part, less the offset `o`, the shift. -/
def fixedExp (F : Nat → Nat) (B : Nat) (o : Int) (x₀ : Nat) (e : Int) : Nat :=
  shiftBy (x₀ * F (e % B).toNat) (e / B - o)

section monotone

variable {F : Nat → Nat} {B : Nat}

/-- Inside one integer part, the next exponent has the next fraction. -/
theorem ediv_emod_succ_of_lt (hB : 0 < B) {e : Int} (hr : e % B + 1 < B) :
    (e + 1) / B = e / B ∧ (e + 1) % B = e % B + 1 := by
  rw [Int.ediv_emod_unique (by omega)]
  have hsplit := Int.mul_ediv_add_emod e B
  have hnonneg := Int.emod_nonneg e (by omega : (B : Int) ≠ 0)
  omega

/-- After the largest fraction comes the next integer part. -/
theorem ediv_emod_succ_of_eq (hB : 0 < B) {e : Int} (hr : e % B + 1 = B) :
    (e + 1) / B = e / B + 1 ∧ (e + 1) % B = 0 := by
  rw [Int.ediv_emod_unique (by omega), mul_add, mul_one]
  have hsplit := Int.mul_ediv_add_emod e B
  omega

/-- One step of the exponent does not lower `fixedExp`. -/
theorem fixedExp_le_succ (hB : 0 < B) (hmono : ∀ f, f + 1 < B → F f ≤ F (f + 1))
    (hwrap : F (B - 1) ≤ 2 * F 0) (o : Int) (x₀ : Nat) (e : Int) :
    fixedExp F B o x₀ e ≤ fixedExp F B o x₀ (e + 1) := by
  have hnonneg := Int.emod_nonneg e (by omega : (B : Int) ≠ 0)
  have hlt := Int.emod_lt_of_pos e (by omega : (0 : Int) < B)
  unfold fixedExp
  by_cases hlast : e % B + 1 = B
  · obtain ⟨hdiv, hmod⟩ := ediv_emod_succ_of_eq hB hlast
    have hfrac : (e % (B : Int)).toNat = B - 1 := by omega
    rw [hdiv, hmod, hfrac, show e / B + 1 - o = e / B - o + 1 by ring, ← shiftBy_two_mul]
    apply shiftBy_mono
    calc x₀ * F (B - 1) ≤ x₀ * (2 * F 0) := Nat.mul_le_mul_left x₀ hwrap
      _ = 2 * (x₀ * F (Int.toNat 0)) := by simp only [Int.toNat_zero]; ring
  · have hinner : e % (B : Int) + 1 < B := by omega
    obtain ⟨hdiv, hmod⟩ := ediv_emod_succ_of_lt hB hinner
    have hfrac : (e % (B : Int) + 1).toNat = (e % (B : Int)).toNat + 1 := by omega
    rw [hdiv, hmod, hfrac]
    exact shiftBy_mono (Nat.mul_le_mul_left x₀ (hmono _ (by omega))) _

theorem fixedExp_mono (hB : 0 < B) (hmono : ∀ f, f + 1 < B → F f ≤ F (f + 1))
    (hwrap : F (B - 1) ≤ 2 * F 0) (o : Int) (x₀ : Nat) : Monotone (fixedExp F B o x₀) :=
  monotone_int_of_le_succ (fixedExp_le_succ hB hmono hwrap o x₀)

end monotone

end FixedPointExp
