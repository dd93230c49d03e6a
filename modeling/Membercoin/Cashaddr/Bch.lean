import Membercoin.Cashaddr.Codec
import Membercoin.Lib.PolyRemainder

/-!
# The cashaddr checksum is a BCH remainder over GF(32)

The comment of `PolyMod` reads its input as the coefficients of a polynomial
over GF(32) below an implicit leading one, and its 40-bit result as the eight
coefficients of the remainder modulo the generator
`g(x) = x^8 + {19}x^7 + {3}x^6 + {25}x^5 + {11}x^4 + {25}x^3 + {3}x^2 + {19}x + {1}`.
GF(32) is GF(2) with a root `a` of `a ^ 5 + a ^ 3 + 1` adjoined; a 5-bit value
is the element whose coordinates in `1, a, …, a ^ 4` are its bits (`toGF`), so
exclusive or is addition, and `xtime` is multiplication by `{2} = a`.

A step of `PolyMod` is a step of Horner's rule modulo `g` (`pack_polyModStep`):
the five constants are `{1}`, `{2}`, `{4}`, `{8}` and `{16}` times
`k(x) = x ^ 8 mod g(x)` (`sum_generatorMultiples`), so `PolyMod` computes the
remainder (`polyMod_bch_remainder`). As `g` has constant term `{1}`, a change
confined to eight consecutive values changes the remainder
(`polyMod_ne_of_burst`), and `Decode` rejects a valid string changed so in its
data part (`decode_burst`).

A change of letter case alone is not such a change: `CHARSET_REV` gives a
letter and its capital the same value, so an address written in capitals
whose data part is its eight checksum characters still decodes after those
characters are written in lower case (`cashaddr_case_change_not_detected`).
-/

namespace Membercoin.Cashaddr

open Polynomial PolyRemainder

section field

/-- `a ^ 5 + a ^ 3 + 1`, the polynomial over GF(2) that GF(32) is built on. -/
noncomputable def gfModulus : (ZMod 2)[X] := X ^ 5 + X ^ 3 + 1

/-- GF(32): GF(2) with a root of `gfModulus` adjoined. -/
abbrev GF32 := AdjoinRoot gfModulus

/-- The root `a`, the element `{2}`. -/
noncomputable def gfRoot : GF32 := AdjoinRoot.root gfModulus

theorem gfModulus_monic : gfModulus.Monic := by
  unfold gfModulus
  monicity!

theorem natDegree_gfModulus : gfModulus.natDegree = 5 := by
  unfold gfModulus
  compute_degree!

instance : Nontrivial GF32 :=
  AdjoinRoot.nontrivial gfModulus
    (by rw [degree_eq_natDegree (Monic.ne_zero gfModulus_monic), natDegree_gfModulus]; decide)

instance : CharP GF32 2 := charP_of_injective_algebraMap (algebraMap (ZMod 2) GF32).injective 2

theorem gfRoot_pow_five : gfRoot ^ 5 = gfRoot ^ 3 + 1 := by
  have h : aeval gfRoot (X ^ 5 + X ^ 3 + 1 : (ZMod 2)[X]) = 0 :=
    (AdjoinRoot.aeval_eq _).trans AdjoinRoot.mk_self
  simp only [map_add, map_pow, aeval_X, map_one] at h
  rw [← CharTwo.neg_eq (gfRoot ^ 3 + 1), eq_neg_iff_add_eq_zero, ← add_assoc]
  exact h

/-- The element of GF(32) whose coordinates are the low five bits of `b`. -/
noncomputable def toGF (b : Nat) : GF32 := bitSum gfRoot 5 b

/-- Multiplication of a 5-bit value by `{2}`: shift up, and fold a carry out of
bit 4 back in as `a ^ 3 + 1`. -/
def xtime (b : Nat) : Nat := ((b <<< 1) &&& 31) ^^^ (if b.testBit 4 then 9 else 0)

theorem testBit_xtime (b : Nat) :
    (xtime b).testBit 0 = b.testBit 4 ∧ (xtime b).testBit 1 = b.testBit 0 ∧
      (xtime b).testBit 2 = b.testBit 1 ∧ (xtime b).testBit 3 = (b.testBit 2 ^^ b.testBit 4) ∧
      (xtime b).testBit 4 = b.testBit 3 := by
  have h31 : (31 : ℕ) = 2 ^ 5 - 1 := rfl
  have h9 : (9 : ℕ).testBit 0 = true ∧ (9 : ℕ).testBit 1 = false ∧ (9 : ℕ).testBit 2 = false ∧
      (9 : ℕ).testBit 3 = true ∧ (9 : ℕ).testBit 4 = false := by decide
  cases h : b.testBit 4 <;>
    simp only [xtime, h, h31, h9, Nat.testBit_xor, Nat.testBit_and, Nat.testBit_shiftLeft,
      Nat.testBit_two_pow_sub_one, ↓reduceIte] <;> simp

theorem toGF_xor (a b : Nat) : toGF (a ^^^ b) = toGF a + toGF b := bitSum_xor gfRoot 5 a b

@[simp] theorem toGF_zero : toGF 0 = 0 := bitSum_zero gfRoot 5

/-- Doubling: `xtime` multiplies by `{2}`, the root `a`, reducing `a ^ 5` to `a ^ 3 + 1`. -/
theorem toGF_xtime (b : Nat) : toGF (xtime b) = gfRoot * toGF b := by
  obtain ⟨h0, h1, h2, h3, h4⟩ := testBit_xtime b
  simp only [toGF, bitSum, Finset.sum_range_succ, Finset.sum_range_zero, h0, h1, h2, h3, h4,
    ite_xor_eq_add]
  linear_combination (-(if b.testBit 4 = true then (1 : GF32) else 0)) * gfRoot_pow_five

theorem toGF_xtime_iterate (n b : Nat) : toGF (xtime^[n] b) = gfRoot ^ n * toGF b := by
  induction n with
  | zero => simp
  | succ n ih => rw [Function.iterate_succ_apply', toGF_xtime, ih, pow_succ]; ring

end field

section register

/-- The 40-bit register as the polynomial of degree below 8 whose coefficients
are its 5-bit groups, the lowest group the constant term. -/
noncomputable def pack (c : Nat) : GF32[X] :=
  ∑ j ∈ Finset.range 8, C (toGF ((c >>> (5 * j)) % 32)) * X ^ j

theorem degree_pack_lt (c : Nat) : (pack c).degree < 8 := by
  rw [pack, Finset.sum_range (fun j => C (toGF ((c >>> (5 * j)) % 32)) * X ^ j)]
  exact degree_sum_fin_lt _

theorem group_xor (a b k : Nat) : ((a ^^^ b) >>> k) % 32 = (a >>> k) % 32 ^^^ (b >>> k) % 32 := by
  have h : (a >>> k ^^^ b >>> k) % 2 ^ 5 = (a >>> k) % 2 ^ 5 ^^^ (b >>> k) % 2 ^ 5 := Nat.xor_mod_two_pow
  rw [Nat.shiftRight_xor_distrib]
  simpa using h

theorem pack_xor (a b : Nat) : pack (a ^^^ b) = pack a + pack b := by
  simp only [pack, group_xor, toGF_xor, map_add, add_mul, Finset.sum_add_distrib]

theorem pack_of_lt {d : Nat} (hd : d < 32) : pack d = C (toGF d) := by
  rw [pack, Finset.sum_range_succ']
  have hhigh : ∀ j ∈ Finset.range 7, C (toGF ((d >>> (5 * (j + 1))) % 32)) * X ^ (j + 1) = (0 : GF32[X]) := by
    intro j _
    have : d >>> (5 * (j + 1)) = 0 := by
      rw [Nat.shiftRight_eq_div_pow]
      exact Nat.div_eq_of_lt (lt_of_lt_of_le hd (by
        calc 32 = 2 ^ 5 := rfl
          _ ≤ 2 ^ (5 * (j + 1)) := Nat.pow_le_pow_right (by decide) (by omega)))
    rw [this, Nat.zero_mod, toGF_zero, map_zero, zero_mul]
  rw [Finset.sum_eq_zero hhigh, zero_add, Nat.mul_zero, Nat.shiftRight_zero, Nat.mod_eq_of_lt hd, pow_zero, mul_one]

/-- The 5-bit groups of the register shifted up by one group are the groups
below the top one. -/
theorem group_shift {c j : Nat} (hj : j < 7) :
    (((c &&& 0x07ffffffff) <<< 5) >>> (5 * (j + 1))) % 32 = (c >>> (5 * j)) % 32 := by
  have hM : (0x07ffffffff : Nat) = 2 ^ 35 - 1 := rfl
  rw [show 5 * (j + 1) = 5 + 5 * j by ring, Nat.shiftRight_add, Nat.shiftLeft_shiftRight, hM,
    Nat.and_two_pow_sub_one_eq_mod, show (32 : Nat) = 2 ^ 5 from rfl]
  apply Nat.eq_of_testBit_eq
  intro i
  simp only [Nat.testBit_mod_two_pow, Nat.testBit_shiftRight]
  by_cases hi : i < 5
  · simp only [hi, decide_true, Bool.true_and, show 5 * j + i < 35 by omega]
  · simp [hi]

/-- Multiplying the register by `x`: its groups move up one place and the top
group leaves as the coefficient of `x ^ 8`. -/
theorem pack_shift {c : Nat} (hc : c < 2 ^ 40) :
    pack ((c &&& 0x07ffffffff) <<< 5) + C (toGF (c >>> 35)) * X ^ 8 = pack c * X := by
  have hlow : ((c &&& 0x07ffffffff) <<< 5 >>> (5 * 0)) % 32 = 0 := by
    rw [Nat.mul_zero, Nat.shiftRight_zero, Nat.shiftLeft_eq]
    exact Nat.mul_mod_left _ _
  have hmid : ∀ j ∈ Finset.range 7,
      C (toGF (((c &&& 0x07ffffffff) <<< 5 >>> (5 * (j + 1))) % 32)) * X ^ (j + 1) =
        C (toGF ((c >>> (5 * j)) % 32)) * X ^ j * X := by
    intro j hj
    rw [group_shift (Finset.mem_range.mp hj), pow_succ, mul_assoc]
  have htop : (c >>> (5 * 7)) % 32 = c >>> 35 := by
    rw [Nat.shiftRight_eq_div_pow]
    exact Nat.mod_eq_of_lt (by rw [Nat.div_lt_iff_lt_mul (by positivity)]; omega)
  rw [pack, Finset.sum_range_succ', Finset.sum_congr rfl hmid, hlow, toGF_zero, map_zero, zero_mul,
    add_zero, pack, Finset.sum_mul, Finset.sum_range_succ _ 7, htop, ← Finset.sum_mul, pow_succ]
  ring

/-- The cashaddr generator `g(x)`, as the comment of `PolyMod` gives it. -/
noncomputable def generator : GF32[X] :=
  X ^ 8 + C (toGF 19) * X ^ 7 + C (toGF 3) * X ^ 6 + C (toGF 25) * X ^ 5 + C (toGF 11) * X ^ 4 +
    C (toGF 25) * X ^ 3 + C (toGF 3) * X ^ 2 + C (toGF 19) * X + C (toGF 1)

/-- `g(x) = x ^ 8 + k(x)`, with `k(x)` the first of the multiples. -/
theorem generator_eq : generator = X ^ 8 + pack 0x98f2bc8e61 := by
  simp only [generator, pack, Finset.sum_range_succ, Finset.sum_range_zero, Nat.shiftRight_eq_div_pow]
  norm_num
  ring

theorem generator_monic : generator.Monic := by
  rw [generator_eq]
  exact monic_X_pow_add (by exact_mod_cast degree_pack_lt _)

theorem degree_generator : generator.degree = 8 := by
  have hX : (X ^ 8 : GF32[X]).degree = 8 := degree_X_pow 8
  rw [generator_eq, degree_add_eq_left_of_degree_lt (hX ▸ degree_pack_lt _), hX]

@[simp] theorem toGF_one : toGF 1 = 1 := by
  simp [toGF, bitSum, Nat.testBit_one_eq_true_iff_self_eq_zero]

theorem isUnit_generator_coeff_zero : IsUnit (generator.coeff 0) := by
  have h : generator.coeff 0 = 1 := by
    simp [generator, coeff_X_pow, coeff_X, coeff_C]
  rw [h]
  exact isUnit_one

/-- A constant whose groups are those of `k` multiplied by `{2 ^ n}` packs to
`{2 ^ n} k(x)`. -/
theorem pack_of_groups {c k n : Nat} (h : ∀ j < 8, (c >>> (5 * j)) % 32 = xtime^[n] ((k >>> (5 * j)) % 32)) :
    pack c = C (gfRoot ^ n) * pack k := by
  rw [pack, pack, Finset.mul_sum]
  refine Finset.sum_congr rfl fun j hj => ?_
  rw [h j (Finset.mem_range.mp hj), toGF_xtime_iterate, C_mul, mul_assoc]

/-- The conditional additions of `PolyMod` add the packed multiples whose bit
is set. -/
theorem pack_foldl_select (c0 : Nat) (L : List (Nat × Nat)) (c : Nat) :
    pack (L.foldl (fun c m => if c0 &&& m.1 ≠ 0 then c ^^^ m.2 else c) c) =
      pack c + (L.map fun m => if c0 &&& m.1 ≠ 0 then pack m.2 else 0).sum := by
  induction L generalizing c with
  | nil => simp
  | cons m L ih =>
    rw [List.foldl_cons, ih, List.map_cons, List.sum_cons]
    split_ifs
    · rw [pack_xor, add_assoc]
    · rw [zero_add]

theorem ite_and_two_pow {x m n : Nat} (hm : m = 2 ^ n) (p : GF32[X]) :
    (if x &&& m ≠ 0 then p else 0) = C (if x.testBit n then 1 else 0) * p := by
  subst hm
  by_cases h : x.testBit n
  · rw [if_pos ((and_two_pow_ne_zero_iff x n).mpr h), if_pos h, C_1, one_mul]
  · rw [if_neg (fun h' => h ((and_two_pow_ne_zero_iff x n).mp h')), if_neg h, C_0, zero_mul]

/-- The five multiples add up to `c0 k(x)`: the constants are `{1}`, `{2}`,
`{4}`, `{8}` and `{16}` times `k(x)`. -/
theorem sum_generatorMultiples (c0 : Nat) :
    (generatorMultiples.map fun m => if c0 &&& m.1 ≠ 0 then pack m.2 else 0).sum =
      C (toGF c0) * pack 0x98f2bc8e61 := by
  have h1 : pack 0x79b76d99e2 = C (gfRoot ^ 1) * pack 0x98f2bc8e61 := pack_of_groups (by decide)
  have h2 : pack 0xf33e5fb3c4 = C (gfRoot ^ 2) * pack 0x98f2bc8e61 := pack_of_groups (by decide)
  have h3 : pack 0xae2eabe2a8 = C (gfRoot ^ 3) * pack 0x98f2bc8e61 := pack_of_groups (by decide)
  have h4 : pack 0x1e4f43e470 = C (gfRoot ^ 4) * pack 0x98f2bc8e61 := pack_of_groups (by decide)
  simp only [generatorMultiples, List.map_cons, List.map_nil, List.sum_cons, List.sum_nil]
  rw [ite_and_two_pow (show (0x01 : Nat) = 2 ^ 0 from rfl), ite_and_two_pow (show (0x02 : Nat) = 2 ^ 1 from rfl),
    ite_and_two_pow (show (0x04 : Nat) = 2 ^ 2 from rfl), ite_and_two_pow (show (0x08 : Nat) = 2 ^ 3 from rfl),
    ite_and_two_pow (show (0x10 : Nat) = 2 ^ 4 from rfl), h1, h2, h3, h4]
  simp only [toGF, bitSum, Finset.sum_range_succ, Finset.sum_range_zero, map_add, map_mul, map_pow,
    map_zero]
  ring

end register

section step

theorem foldl_select_lt (c0 : Nat) :
    ∀ (L : List (Nat × Nat)) (c : Nat), (∀ m ∈ L, m.2 < 2 ^ 40) → c < 2 ^ 40 →
      L.foldl (fun c m => if c0 &&& m.1 ≠ 0 then c ^^^ m.2 else c) c < 2 ^ 40
  | [], _, _, hc => hc
  | m :: L, c, hL, hc => by
    rw [List.foldl_cons]
    apply foldl_select_lt c0 L _ (fun x hx => hL x (List.mem_cons_of_mem _ hx))
    split_ifs
    · exact Nat.xor_lt_two_pow hc (hL m List.mem_cons_self)
    · exact hc

/-- The register stays below `2 ^ 40`: so does every term of its exclusive or. -/
theorem polyModStep_lt (c : Nat) (d : UInt8) : polyModStep c d < 2 ^ 40 := by
  have hmask : c &&& 0x07ffffffff < 2 ^ 35 := Nat.and_lt_two_pow c (by decide)
  have hshift : (c &&& 0x07ffffffff) <<< 5 < 2 ^ 40 := by
    rw [Nat.shiftLeft_eq]
    calc (c &&& 0x07ffffffff) * 2 ^ 5 < 2 ^ 35 * 2 ^ 5 := Nat.mul_lt_mul_of_pos_right hmask (by decide)
      _ = 2 ^ 40 := by norm_num
  have hd : d.toNat < 2 ^ 40 := lt_trans d.toNat_lt (by decide)
  exact foldl_select_lt _ generatorMultiples _ (by decide) (Nat.xor_lt_two_pow hshift hd)

/-- One step of `PolyMod` is one step of Horner's rule modulo `g(x)`: the
register times `x` plus `d`, with `c0 x ^ 8` replaced by `c0 k(x)`. -/
theorem pack_polyModStep {c : Nat} (hc : c < 2 ^ 40) {d : UInt8} (hd : d.toNat < 32) :
    pack (polyModStep c d) = (pack c * X + C (toGF d.toNat)) %ₘ generator := by
  have hc0 : (c >>> 35) % 256 = c >>> 35 := by
    rw [Nat.shiftRight_eq_div_pow]
    exact Nat.mod_eq_of_lt (by rw [Nat.div_lt_iff_lt_mul (by positivity)]; omega)
  have hstep : pack (polyModStep c d) =
      pack ((c &&& 0x07ffffffff) <<< 5) + C (toGF d.toNat) + C (toGF (c >>> 35)) * pack 0x98f2bc8e61 := by
    simp only [polyModStep]
    rw [pack_foldl_select, sum_generatorMultiples, pack_xor, pack_of_lt hd, hc0]
  have hdeg : (pack (polyModStep c d)).degree < generator.degree := degree_generator ▸ degree_pack_lt _
  rw [← (modByMonic_eq_self_iff generator_monic).mpr hdeg]
  apply modByMonic_eq_of_dvd_sub generator_monic
  have h2 : (2 : GF32[X]) = 0 := CharTwo.two_eq_zero
  refine ⟨C (toGF (c >>> 35)), ?_⟩
  rw [hstep, ← pack_shift hc, generator_eq]
  linear_combination (-(C (toGF (c >>> 35)) * X ^ 8)) * h2

/-- `PolyMod` computes the BCH remainder: its 40-bit result packs to the
remainder of `x ^ n + v₀ x ^ (n-1) + ⋯ + v_{n-1}` modulo `g(x)` over GF(32). -/
theorem polyMod_bch_remainder (v : List UInt8) (hv : ∀ d ∈ v, d.toNat < 32) :
    polyMod v < 2 ^ 40 ∧ pack (polyMod v) = hornerPoly (v.map fun d => toGF d.toNat) %ₘ generator := by
  induction v using List.reverseRecOn with
  | nil =>
    refine ⟨by decide, ?_⟩
    rw [polyMod, List.foldl_nil, List.map_nil, hornerPoly_nil, pack_of_lt (by decide), toGF_one, map_one,
      (modByMonic_eq_self_iff generator_monic).mpr (by rw [degree_generator, degree_one]; decide)]
  | append_singleton v d ih =>
    have hd : d.toNat < 32 := hv d (List.mem_append_right _ (List.mem_singleton_self d))
    obtain ⟨hlt, hpack⟩ := ih fun x hx => hv x (List.mem_append_left _ hx)
    have hfold : polyMod (v ++ [d]) = polyModStep (polyMod v) d := by
      rw [polyMod, polyMod, List.foldl_append, List.foldl_cons, List.foldl_nil]
    rw [hfold]
    refine ⟨polyModStep_lt _ _, ?_⟩
    rw [pack_polyModStep hlt hd, hpack, modByMonic_horner_step generator_monic, List.map_append,
      List.map_singleton, hornerPoly_append_singleton]

end step

section burst

theorem degree_gfModulus : gfModulus.degree = 5 := by
  rw [degree_eq_natDegree (Monic.ne_zero gfModulus_monic), natDegree_gfModulus]
  rfl

/-- Distinct 5-bit values are distinct elements of GF(32): the powers
`1, a, …, a ^ 4` are independent, as `a` satisfies no equation of degree below 5. -/
theorem toGF_ne_zero {x : Nat} (hx : x < 32) (h0 : x ≠ 0) : toGF x ≠ 0 := by
  let p : (ZMod 2)[X] := ∑ i ∈ Finset.range 5, C (if x.testBit i then 1 else 0) * X ^ i
  have hp : AdjoinRoot.mk gfModulus p = toGF x := by
    simp only [p, toGF, bitSum, map_sum, map_mul, map_pow, AdjoinRoot.mk_C, AdjoinRoot.mk_X]
    refine Finset.sum_congr rfl fun i _ => ?_
    split_ifs <;> simp [gfRoot]
  have hdeg : p.degree < gfModulus.degree := by
    rw [degree_gfModulus]
    simp only [p]
    rw [Finset.sum_range (fun i => C (if x.testBit i then (1 : ZMod 2) else 0) * X ^ i)]
    exact degree_sum_fin_lt _
  have hcoeff : ∀ i < 5, p.coeff i = if x.testBit i then 1 else 0 := by
    intro i hi
    simp only [p, finsetSum_coeff, coeff_C_mul_X_pow]
    rw [Finset.sum_eq_single i (fun j _ hji => if_neg (Ne.symm hji)) (fun h => absurd (Finset.mem_range.mpr hi) h),
      if_pos rfl]
  intro hzero
  rw [← hp, AdjoinRoot.mk_eq_zero] at hzero
  have hp0 : p = 0 := by_contra fun hne => Monic.not_dvd_of_degree_lt gfModulus_monic hne hdeg hzero
  apply h0
  apply Nat.eq_of_testBit_eq
  intro i
  rw [Nat.zero_testBit]
  by_cases hi : i < 5
  · have hc := hcoeff i hi
    rw [hp0, coeff_zero] at hc
    by_contra hbit
    rw [if_pos (Bool.not_eq_false _ ▸ hbit)] at hc
    exact one_ne_zero hc.symm
  · have h32 : 32 ≤ 2 ^ i :=
      calc 32 = 2 ^ 5 := rfl
        _ ≤ 2 ^ i := Nat.pow_le_pow_right (by decide) (by omega)
    exact Nat.testBit_lt_two_pow (by omega)

theorem natDegree_generator : generator.natDegree = 8 :=
  natDegree_eq_of_degree_eq_some degree_generator

theorem getD_map_toGF (l : List UInt8) (i : Nat) :
    (l.map fun d => toGF d.toNat).getD i 0 = toGF (l.getD i 0).toNat := by
  rw [List.getD_eq_getElem?_getD, List.getD_eq_getElem?_getD, List.getElem?_map]
  cases l[i]? <;> simp

/-- Two 5-bit values with the same element of GF(32) are equal. -/
theorem toGF_injective {x y : UInt8} (hx : x.toNat < 32) (hy : y.toNat < 32)
    (h : toGF x.toNat = toGF y.toNat) : x = y := by
  by_contra hne
  have hxor : x.toNat ^^^ y.toNat ≠ 0 := by
    intro h0
    apply hne
    apply UInt8.toNat_inj.mp
    have hcancel := Nat.xor_xor_cancel_left x.toNat y.toNat
    rw [h0, Nat.xor_zero] at hcancel
    exact hcancel
  have hlt : x.toNat ^^^ y.toNat < 2 ^ 5 := Nat.xor_lt_two_pow hx hy
  apply toGF_ne_zero hlt hxor
  rw [toGF_xor, h, CharTwo.add_self_eq_zero]

/-- `PolyMod` detects a burst: two lists of 5-bit values of one length that
differ, and only at positions in `[a, a + 8)`, have different remainders. -/
theorem polyMod_ne_of_burst {u u' : List UInt8} (hu : ∀ d ∈ u, d.toNat < 32) (hu' : ∀ d ∈ u', d.toNat < 32)
    (hlen : u'.length = u.length) (a : Nat) (ha : a + 8 ≤ u.length)
    (hout : ∀ i, i < a ∨ a + 8 ≤ i → u'.getD i 0 = u.getD i 0) (hne : u' ≠ u) :
    polyMod u' ≠ polyMod u := by
  intro heq
  have hpack := congrArg pack heq
  rw [(polyMod_bch_remainder u' hu').2, (polyMod_bch_remainder u hu).2] at hpack
  refine hornerPoly_modByMonic_ne_of_burst generator_monic isUnit_generator_coeff_zero
    (by rw [List.length_map, List.length_map, hlen]) (by rwa [natDegree_generator, List.length_map])
    (fun i hi => ?_) (fun hmap => hne ?_) hpack
  · rw [getD_map_toGF, getD_map_toGF, hout i (by rwa [natDegree_generator] at hi)]
  · apply List.ext_getElem hlen
    intro i h1 h2
    have hi := congrArg (fun l => l.getD i 0) hmap
    simp only [getD_map_toGF, List.getD_eq_getElem _ _ h1, List.getD_eq_getElem _ _ h2] at hi
    exact toGF_injective (hu' _ (List.getElem_mem h1)) (hu _ (List.getElem_mem h2)) hi

theorem expandPrefix_lt (pfx : List UInt8) : ∀ d ∈ expandPrefix pfx, d.toNat < 32 := by
  intro d hd
  simp only [expandPrefix, List.mem_append, List.mem_map, List.mem_singleton] at hd
  rcases hd with ⟨c, _, rfl⟩ | rfl
  · rw [UInt8.toNat_and]
    exact Nat.and_lt_two_pow _ (show (0x1f : UInt8).toNat < 2 ^ 5 by decide)
  · decide

/-- The values of two data parts that differ only in a window of eight
characters, each changed one a charset character, and differ in value
somewhere, give different remainders behind any expanded prefix. -/
theorem polyMod_data_burst {pfx dat dat' : List UInt8} {a : Nat}
    (hok : ∀ c ∈ dat, (decodeValue c).isSome) (h8 : 8 ≤ dat.length) (hlen : dat'.length = dat.length)
    (hwin : ∀ i, dat'.getD i 0 ≠ dat.getD i 0 → a ≤ i ∧ i < a + 8 ∧ dat'.getD i 0 ∈ charset)
    (hval : ∃ i, decodeValue (dat'.getD i 0) ≠ decodeValue (dat.getD i 0)) :
    polyMod (expandPrefix pfx ++ dat'.map fun c => (decodeValue c).getD 0) ≠
      polyMod (expandPrefix pfx ++ dat.map fun c => (decodeValue c).getD 0) := by
  set E := expandPrefix pfx
  have hok' : ∀ c ∈ dat', (decodeValue c).isSome := by
    intro c hc
    obtain ⟨i, hi, rfl⟩ := List.getElem_of_mem hc
    have hget := List.getD_eq_getElem dat' 0 hi
    by_cases hsame : dat'.getD i 0 = dat.getD i 0
    · rw [← hget, hsame, List.getD_eq_getElem dat 0 (hlen ▸ hi)]
      exact hok _ (List.getElem_mem _)
    · rw [← hget]
      exact decodeValue_isSome_of_mem_charset _ (hwin i hsame).2.2
  have hlt : ∀ l : List UInt8, (∀ c ∈ l, (decodeValue c).isSome) →
      ∀ d ∈ E ++ l.map (fun c => (decodeValue c).getD 0), d.toNat < 32 := by
    intro l hl d hd
    rcases List.mem_append.mp hd with hd | hd
    · exact expandPrefix_lt pfx d hd
    · obtain ⟨c, hc, rfl⟩ := List.mem_map.mp hd
      obtain ⟨v, hv⟩ := Option.isSome_iff_exists.mp (hl c hc)
      simp only [hv, Option.getD_some]
      exact decodeValue_lt hv
  let a' := min a (dat.length - 8)
  refine polyMod_ne_of_burst (hlt dat hok) (hlt dat' hok') (by simp [hlen]) (E.length + a')
    (by simp only [List.length_append, List.length_map]; omega) (fun i hi => ?_) (fun heq => ?_)
  · by_cases hE : i < E.length
    · rw [List.getD_append _ _ _ _ hE, List.getD_append _ _ _ _ hE]
    · rw [List.getD_append_right _ _ _ _ (by omega), List.getD_append_right _ _ _ _ (by omega),
        getD_map_decodeValue, getD_map_decodeValue]
      by_cases hsame : dat'.getD (i - E.length) 0 = dat.getD (i - E.length) 0
      · rw [hsame]
      · have hin : i - E.length < dat.length := by
          by_contra hout
          apply hsame
          rw [List.getD_eq_default _ _ (by omega), List.getD_eq_default _ _ (by omega)]
        have := hwin _ hsame
        omega
  · obtain ⟨i, hi⟩ := hval
    apply hi
    have hin : i < dat.length := by
      by_contra hout
      apply hi
      rw [List.getD_eq_default _ _ (by omega), List.getD_eq_default _ _ (by omega)]
    have hget := congrArg (fun l => l.getD (E.length + i) 0) heq
    simp only [List.getD_append_right _ _ _ _ (Nat.le_add_right _ _), Nat.add_sub_cancel_left,
      getD_map_decodeValue] at hget
    rw [List.getD_eq_getElem _ _ hin, List.getD_eq_getElem _ _ (hlen ▸ hin)] at hget ⊢
    obtain ⟨v, hv⟩ := Option.isSome_iff_exists.mp (hok' _ (List.getElem_mem (hlen ▸ hin)))
    obtain ⟨w, hw⟩ := Option.isSome_iff_exists.mp (hok _ (List.getElem_mem hin))
    rw [hv, hw, Option.getD_some, Option.getD_some] at hget
    rw [hv, hw, hget]

end burst

/-- A burst in the data part of a string `Decode` accepts is rejected: the
prefix part and the separator are read as before, and the checksum fails. -/
theorem decode_burst {defaultPrefix pre dat dat' p data : List UInt8} {a : Nat}
    (hvalid : decode (pre ++ dat) defaultPrefix = some (p, data)) (hp : p ≠ [])
    (hpre : pre = [] ∨ ∃ q, pre = q ++ [ascii ':']) (hsep : ascii ':' ∉ dat)
    (hlen : dat'.length = dat.length)
    (hwin : ∀ i, dat'.getD i 0 ≠ dat.getD i 0 → a ≤ i ∧ i < a + 8 ∧ dat'.getD i 0 ∈ charset)
    (hval : ∃ i, decodeValue (dat'.getD i 0) ≠ decodeValue (dat.getD i 0)) :
    decode (pre ++ dat') defaultPrefix = some ([], []) := by
  obtain ⟨st, vs, hscan, hvs, hck, h8⟩ := decode_eq_some hvalid hp
  have hsep' : ascii ':' ∉ dat' := by
    intro hmem
    obtain ⟨i, hi, hci⟩ := List.getElem_of_mem hmem
    by_cases hsame : dat'.getD i 0 = dat.getD i 0
    · rw [List.getD_eq_getElem _ _ hi, hci, List.getD_eq_getElem _ _ (hlen ▸ hi)] at hsame
      exact hsep (hsame ▸ List.getElem_mem _)
    · have hc := (hwin i hsame).2.2
      rw [List.getD_eq_getElem _ _ hi, hci] at hc
      exact separator_not_mem_charset hc
  apply decode_of_not_verify
  intro st' vs' hscan' hvs'
  obtain ⟨hP, hdrop⟩ := scanLoop_separator hpre hsep hscan
  obtain ⟨hP', hdrop'⟩ := scanLoop_separator hpre hsep' hscan'
  rw [hdrop, List.drop_left] at hvs
  rw [hdrop', List.drop_left] at hvs'
  have hpfx : (if st'.prefixSize = 0 then defaultPrefix else ((pre ++ dat').take st'.prefixSize).map lowerCase) =
      (if st.prefixSize = 0 then defaultPrefix else ((pre ++ dat).take st.prefixSize).map lowerCase) := by
    rw [hP, hP', List.take_append_of_le_length (by omega), List.take_append_of_le_length (by omega)]
  rw [hpfx]
  obtain ⟨hok, rfl⟩ := mapM_decodeValue_eq_some.1 hvs
  obtain ⟨-, rfl⟩ := mapM_decodeValue_eq_some.1 hvs'
  rw [verifyChecksum, beq_iff_eq] at hck
  rw [verifyChecksum, beq_eq_false_iff_ne, ← hck]
  exact polyMod_data_burst hok (by rwa [List.length_map] at h8) hlen hwin hval

end Membercoin.Cashaddr

namespace Membercoin

open Polynomial PolyRemainder Cashaddr

/-- `PolyMod` computes the BCH remainder modulo `g(x)` over GF(32) of every list
of 5-bit values, and `Decode` rejects every valid string changed within eight
consecutive characters of its data part, each changed character a charset
character, when the change alters some value and not only letter case. -/
theorem cashaddr_bch_checksum :
    (∀ v : List UInt8, (∀ d ∈ v, d.toNat < 32) →
      polyMod v < 2 ^ 40 ∧ pack (polyMod v) = hornerPoly (v.map fun d => toGF d.toNat) %ₘ generator) ∧
    ∀ (defaultPrefix pre dat dat' p data : List UInt8) (a : Nat),
      decode (pre ++ dat) defaultPrefix = some (p, data) → p ≠ [] →
      (pre = [] ∨ ∃ q, pre = q ++ [ascii ':']) → ascii ':' ∉ dat → dat'.length = dat.length →
      (∀ i, dat'.getD i 0 ≠ dat.getD i 0 → a ≤ i ∧ i < a + 8 ∧ dat'.getD i 0 ∈ charset) →
      (∃ i, decodeValue (dat'.getD i 0) ≠ decodeValue (dat.getD i 0)) →
      decode (pre ++ dat') defaultPrefix = some ([], []) :=
  ⟨polyMod_bch_remainder, fun _ _ _ _ _ _ _ hvalid hp hpre hsep hlen hwin hval =>
    decode_burst hvalid hp hpre hsep hlen hwin hval⟩

theorem cashaddr_bch_checksum_three_values :
    polyMod [1, 2, 3] < 2 ^ 40 ∧
      pack (polyMod [1, 2, 3]) = hornerPoly ([1, 2, 3].map fun d : UInt8 => toGF d.toNat) %ₘ generator :=
  cashaddr_bch_checksum.1 [1, 2, 3] (by simp)

set_option maxRecDepth 20000 in
/-- The checksum of an empty payload under the prefix `bitcoincash`, written in
capitals and in lower case: both decode, and the two differ only in six of
eight consecutive data characters, each now a charset character. -/
theorem cashaddr_case_change_not_detected :
    decode ("A5A8YRHZ".toList.map ascii) ("bitcoincash".toList.map ascii) =
        some ("bitcoincash".toList.map ascii, []) ∧
      decode ("a5a8yrhz".toList.map ascii) ("bitcoincash".toList.map ascii) =
        some ("bitcoincash".toList.map ascii, []) ∧
      "a5a8yrhz".toList.map ascii ≠ "A5A8YRHZ".toList.map ascii ∧ ∀ c ∈ "a5a8yrhz".toList.map ascii, c ∈ charset :=
  ⟨by decide, by decide, by decide, by decide⟩

end Membercoin
