import Mathlib

/-!
# Horner remainders, burst errors, and bits as sums

A checksum register that takes values `v₀, v₁, …` one at a time, keeping the
remainder modulo a monic `g` of `register * X + v`, computes the remainder of
the Horner polynomial `X ^ n + v₀ X ^ (n-1) + ⋯ + v_{n-1}`, the leading one
being where the register starts: reducing after a step of Horner's rule
(`hornerPoly_append_singleton`) gives what reducing at the end gives
(`modByMonic_horner_step`). When the constant term
of `g` is a unit, `X` is prime to `g`, so no nonzero `X ^ m * b` with `b` of
degree below `g`'s is a multiple of `g` (`not_dvd_X_pow_mul`): a change
confined to at most `deg g` consecutive values always changes the remainder
(`hornerPoly_modByMonic_ne_of_burst`).

In a ring of characteristic two the bits of a number become a sum of powers of
an element (`bitSum`), and exclusive or becomes addition (`bitSum_xor`).
-/

namespace PolyRemainder

open Polynomial

section horner

variable {R : Type*} [CommRing R]

/-- `X ^ n + v₀ X ^ (n-1) + ⋯ + v_{n-1}`: the values below an implicit leading one. -/
noncomputable def hornerPoly (v : List R) : R[X] :=
  X ^ v.length + ∑ i ∈ Finset.range v.length, C (v.getD i 0) * X ^ (v.length - 1 - i)

theorem hornerPoly_nil : hornerPoly ([] : List R) = 1 := by
  simp [hornerPoly]

/-- Horner's rule: one more value multiplies by `X` and adds the value. -/
theorem hornerPoly_append_singleton (v : List R) (d : R) :
    hornerPoly (v ++ [d]) = hornerPoly v * X + C d := by
  have hlast : (v ++ [d]).getD v.length 0 = d := by simp
  have hbody : ∀ i ∈ Finset.range v.length,
      C ((v ++ [d]).getD i 0) * X ^ (v.length - i) = C (v.getD i 0) * X ^ (v.length - 1 - i) * X := by
    intro i hi
    rw [Finset.mem_range] at hi
    rw [List.getD_append _ _ _ _ hi, mul_assoc, ← pow_succ, show v.length - 1 - i + 1 = v.length - i by omega]
  simp only [hornerPoly, List.length_append, List.length_singleton, Nat.add_sub_cancel]
  rw [Finset.sum_range_succ, hlast, Finset.sum_congr rfl hbody, ← Finset.sum_mul, Nat.sub_self, pow_zero,
    mul_one, pow_succ]
  ring

variable {g : R[X]}

/-- Reducing after a step of Horner's rule gives what reducing at the end gives. -/
theorem modByMonic_horner_step (hg : g.Monic) (p : R[X]) (d : R) :
    (p %ₘ g * X + C d) %ₘ g = (p * X + C d) %ₘ g := by
  apply modByMonic_eq_of_dvd_sub hg
  have hdiff : p %ₘ g * X + C d - (p * X + C d) = g * (-(p /ₘ g) * X) := by
    rw [modByMonic_eq_sub_mul_div]
    ring
  rw [hdiff]
  exact dvd_mul_right g _

end horner

section burst

variable {R : Type*} [CommRing R]

/-- `X` is prime to a polynomial whose constant term is a unit. -/
theorem isCoprime_X_of_isUnit_coeff_zero {g : R[X]} (h0 : IsUnit (g.coeff 0)) : IsCoprime X g := by
  obtain ⟨q, hq⟩ : X ∣ g - C (g.coeff 0) := X_dvd_sub_C
  obtain ⟨u, hu⟩ := h0
  refine ⟨-C (↑u⁻¹ : R) * q, C (↑u⁻¹ : R), ?_⟩
  calc -C (↑u⁻¹ : R) * q * X + C (↑u⁻¹ : R) * g =
        C ((↑u⁻¹ : R) * g.coeff 0) + C (↑u⁻¹ : R) * (g - C (g.coeff 0) - X * q) := by
        rw [C_mul]
        ring
    _ = 1 := by rw [hq, sub_self, mul_zero, add_zero, ← hu, Units.inv_mul, C_1]

/-- A nonzero `b` of degree below `g`'s, moved up by `X ^ m`, is not a multiple
of `g` when `g` is monic with a unit constant term. -/
theorem not_dvd_X_pow_mul {g b : R[X]} (hg : g.Monic) (h0 : IsUnit (g.coeff 0)) (hb : b ≠ 0)
    (hdeg : b.degree < g.degree) (m : ℕ) : ¬g ∣ X ^ m * b := by
  intro hdvd
  have hcop : IsCoprime g (X ^ m) := (isCoprime_X_of_isUnit_coeff_zero h0).pow_left.symm
  exact hg.not_dvd_of_degree_lt hb hdeg (hcop.dvd_of_dvd_mul_left hdvd)

/-- Two lists of values of one length that differ, and only at positions in
`[a, a + deg g)` inside the lists, have different Horner remainders modulo a
monic `g` with a unit constant term: the difference is `X ^ m` times a nonzero
`b` of degree below `g`'s. -/
theorem hornerPoly_modByMonic_ne_of_burst [Nontrivial R] {g : R[X]} (hg : g.Monic)
    (h0 : IsUnit (g.coeff 0)) {v v' : List R} (hlen : v'.length = v.length) {a : ℕ}
    (ha : a + g.natDegree ≤ v.length)
    (hout : ∀ i, i < a ∨ a + g.natDegree ≤ i → v'.getD i 0 = v.getD i 0) (hne : v' ≠ v) :
    hornerPoly v' %ₘ g ≠ hornerPoly v %ₘ g := by
  set k := g.natDegree with hk
  set n := v.length with hn
  let δ : ℕ → R := fun i => v'.getD i 0 - v.getD i 0
  let b : R[X] := ∑ t ∈ Finset.range k, C (δ (a + t)) * X ^ (k - 1 - t)
  have hdiff : hornerPoly v' - hornerPoly v = X ^ (n - a - k) * b := by
    have hsub : hornerPoly v' - hornerPoly v = ∑ i ∈ Finset.range n, C (δ i) * X ^ (n - 1 - i) := by
      simp only [hornerPoly, hlen, ← hn, δ, C_sub, sub_mul, Finset.sum_sub_distrib]
      ring
    have hwin : ∑ i ∈ Finset.range n, C (δ i) * X ^ (n - 1 - i) =
        ∑ i ∈ Finset.Ico a (a + k), C (δ i) * X ^ (n - 1 - i) := by
      refine (Finset.sum_subset (fun i hi => ?_) fun i _ hi => ?_).symm
      · rw [Finset.mem_Ico] at hi
        exact Finset.mem_range.mpr (by omega)
      · have hi' : i < a ∨ a + k ≤ i := by
          rw [Finset.mem_Ico] at hi
          omega
        simp only [δ, hout i hi', sub_self, C_0, zero_mul]
    rw [hsub, hwin, Finset.sum_Ico_eq_sum_range, Nat.add_sub_cancel_left, Finset.mul_sum]
    refine Finset.sum_congr rfl fun t ht => ?_
    rw [Finset.mem_range] at ht
    rw [show n - 1 - (a + t) = (n - a - k) + (k - 1 - t) by omega, pow_add]
    ring
  have hδ : ∃ t < k, δ (a + t) ≠ 0 := by
    by_contra hnone
    have hall : ∀ t < k, δ (a + t) = 0 := fun t ht => by_contra fun h => hnone ⟨t, ht, h⟩
    apply hne
    apply List.ext_getElem hlen
    intro i h1 h2
    have hi : v'.getD i 0 = v.getD i 0 := by
      by_cases hw : a ≤ i ∧ i < a + k
      · have := hall (i - a) (by omega)
        rwa [Nat.add_sub_cancel' hw.1, sub_eq_zero] at this
      · exact hout i (by omega)
    rwa [List.getD_eq_getElem _ _ h1, List.getD_eq_getElem _ _ h2] at hi
  have hcoeff : ∀ t < k, b.coeff (k - 1 - t) = δ (a + t) := by
    intro t ht
    simp only [b, finsetSum_coeff, coeff_C_mul_X_pow]
    rw [Finset.sum_eq_single t (fun t' ht' hne' => if_neg (by rw [Finset.mem_range] at ht'; omega))
      (fun h => absurd (Finset.mem_range.mpr ht) h), if_pos rfl]
  have hb : b ≠ 0 := by
    obtain ⟨t, ht, hδt⟩ := hδ
    intro hb0
    apply hδt
    rw [← hcoeff t ht, hb0, coeff_zero]
  have hdeg : b.degree < g.degree := by
    rw [degree_eq_natDegree hg.ne_zero, ← hk, degree_lt_iff_coeff_zero]
    intro m hm
    simp only [b, finsetSum_coeff, coeff_C_mul_X_pow]
    exact Finset.sum_eq_zero fun t ht => if_neg (by rw [Finset.mem_range] at ht; omega)
  intro heq
  apply not_dvd_X_pow_mul hg h0 hb hdeg (n - a - k)
  rw [← hdiff, ← modByMonic_eq_zero_iff_dvd hg, sub_modByMonic, heq, sub_self]

end burst

section bits

/-- A bit of `x` selected by a power of two. -/
theorem and_two_pow_ne_zero_iff (x n : ℕ) : x &&& 2 ^ n ≠ 0 ↔ x.testBit n = true := by
  rw [Nat.and_two_pow]
  cases x.testBit n <;> simp

variable {R : Type*} [CommRing R]

/-- The low `k` bits of `b` as a sum of powers of `x`. -/
def bitSum (x : R) (k b : ℕ) : R := ∑ i ∈ Finset.range k, (if b.testBit i then 1 else 0) * x ^ i

@[simp] theorem bitSum_zero (x : R) (k : ℕ) : bitSum x k 0 = 0 := by
  simp [bitSum]

variable [CharP R 2]

/-- In characteristic two, the indicator of an exclusive or is the sum of the indicators. -/
theorem ite_xor_eq_add (c d : Bool) :
    (if (c ^^ d) = true then (1 : R) else 0) = (if c = true then 1 else 0) + (if d = true then 1 else 0) := by
  cases c <;> cases d <;> simp [CharTwo.add_self_eq_zero]

theorem bitSum_xor (x : R) (k a b : ℕ) : bitSum x k (a ^^^ b) = bitSum x k a + bitSum x k b := by
  simp only [bitSum, Nat.testBit_xor, ite_xor_eq_add, add_mul, Finset.sum_add_distrib]

end bits

end PolyRemainder
