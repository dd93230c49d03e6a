import Membercoin.Lib.FixedPointExp
import Membercoin.Script.ScriptNum

/-!
# The ASERT target (pow.cpp)

`CalculateASERT` adapts the anchor block's target `refTarget` by
`2 ^ ((nTimeDiff - nPowTargetSpacing * (nHeightDiff + 1)) / nHalfLife)`, in
fixed point. The exponent is scaled by `65536` and divided by the half-life
(`asertExponent`). Its integer part `exponent >> 16` becomes a shift of the
256-bit target. Its fraction `uint16_t(exponent)` selects a factor in
`[65536, 131071]`, a cubic approximation of `65536 * 2 ^ (frac / 65536)`
(`asertFactor`). The result is clamped to `[1, powLimit]` (`clampTarget`).

The model follows the C++ step by step. Undefined behaviour and failed
`assert`s are `none`: signed `int64_t` overflow, `llabs(INT64_MIN)`, and
division by zero. An `arith_uint256` is a natural number modulo `2 ^ 256`.
Its shift operators take the count as an `unsigned int`, so the `int64_t`
count is converted modulo `2 ^ 32` (`shiftTarget`). The conversion through
`int` on the left shift is taken modulo `2 ^ 32` too, as C++20 specifies.

While the shift count stays below `2 ^ 32`, the result is the clamped
fixed-point power `FixedPointExp.fixedExp` of the exponent
(`calculateASERT_eq_clamp`). It is then monotone in the exponent, and hence
non-decreasing in `nTimeDiff` and non-increasing in `nHeightDiff`.
-/

namespace Membercoin

open FixedPointExp

/-- A signed `int64_t` result: outside the range the C++ is undefined. -/
def checkedInt64 (v : Int) : Option Int := if IsInt64 v then some v else none

/-- The cubic of `CalculateASERT` in `uint64_t` arithmetic. -/
def asertCubic (frac : UInt64) : UInt64 :=
  (195766423245049 : UInt64) * frac + (971821376 : UInt64) * frac * frac +
    (5127 : UInt64) * frac * frac * frac + ((1 : UInt64) <<< 47)

/-- `factor = 65536 + (cubic >> 48)`, stored in a `uint32_t`. -/
def asertFactor (frac : UInt64) : UInt32 :=
  ((65536 : UInt64) + (asertCubic frac >>> 48)).toUInt32

/-- The exponent of `CalculateASERT`, with the asserts on `nHeightDiff` and on
the time difference:
`((nTimeDiff - nPowTargetSpacing * (nHeightDiff + 1)) * 65536) / nHalfLife`. -/
def asertExponent (nPowTargetSpacing nTimeDiff nHeightDiff nHalfLife : Int) : Option Int := do
  guard (0 ≤ nHeightDiff)
  let spacingHeight ← checkedInt64 (nPowTargetSpacing * nHeightDiff)
  let diff ← checkedInt64 (nTimeDiff - spacingHeight)
  let absDiff ← checkedInt64 |diff|
  guard (absDiff < 2 ^ 47)
  let heightNext ← checkedInt64 (nHeightDiff + 1)
  let spacingNext ← checkedInt64 (nPowTargetSpacing * heightNext)
  let behind ← checkedInt64 (nTimeDiff - spacingNext)
  let scaled ← checkedInt64 (behind * 65536)
  guard (nHalfLife ≠ 0)
  checkedInt64 (scaled.tdiv nHalfLife)

/-- `nextTarget` shifted by `shifts`: right by `-shifts`, or left by `shifts`
with the overflow check, which gives `powLimit` when high bits are lost. -/
def shiftTarget (nextTarget : Nat) (shifts : Int) (powLimit : Nat) : Nat :=
  if shifts ≤ 0 then nextTarget >>> (-shifts % 2 ^ 32).toNat
  else
    let s := (shifts % 2 ^ 32).toNat
    let nextTargetShifted := (nextTarget <<< s) % 2 ^ 256
    if nextTargetShifted >>> s ≠ nextTarget then powLimit else nextTargetShifted

/-- The clamp at the end of `CalculateASERT`. -/
def clampTarget (nextTarget powLimit : Nat) : Nat :=
  if nextTarget = 0 then 1 else if nextTarget > powLimit then powLimit else nextTarget

/-- `CalculateASERT`. -/
def calculateASERT (refTarget : Nat) (nPowTargetSpacing nTimeDiff nHeightDiff : Int) (powLimit : Nat)
    (nHalfLife : Int) : Option Nat := do
  guard (0 < refTarget ∧ refTarget ≤ powLimit)
  let exponent ← asertExponent nPowTargetSpacing nTimeDiff nHeightDiff nHalfLife
  let shifts := exponent >>> (16 : Nat)
  let frac : UInt64 := (exponent % 65536).toNat.toUInt64
  guard (exponent = shifts * 65536 + (frac.toNat : Int))
  let nextTarget := refTarget * (asertFactor frac).toNat % 2 ^ 256
  let shifts ← checkedInt64 (shifts - 16)
  pure (clampTarget (shiftTarget nextTarget shifts powLimit) powLimit)

section factor

/-- The cubic over the naturals. -/
def asertPoly (f : Nat) : Nat :=
  195766423245049 * f + 971821376 * f * f + 5127 * f * f * f + 2 ^ 47

/-- The factor over the naturals, about `65536 * 2 ^ (f / 65536)`. -/
def asertFactorNat (f : Nat) : Nat := 65536 + asertPoly f / 2 ^ 48

theorem asertPoly_mono {f g : Nat} (h : f ≤ g) : asertPoly f ≤ asertPoly g := by
  unfold asertPoly
  gcongr

/-- The cubic stays below `2 ^ 64` on every fraction. -/
theorem asertPoly_lt {f : Nat} (hf : f < 65536) : asertPoly f < 2 ^ 64 :=
  calc asertPoly f ≤ asertPoly 65535 := asertPoly_mono (by omega)
    _ < 2 ^ 64 := by decide

/-- So the `uint64_t` cubic does not wrap. -/
theorem toNat_asertCubic {frac : UInt64} (hf : frac.toNat < 65536) :
    (asertCubic frac).toNat = asertPoly frac.toNat := by
  simp only [asertCubic, UInt64.toNat_add, UInt64.toNat_mul, Nat.mod_mul_mod, Nat.mod_add_mod,
    Nat.add_mod_mod, UInt64.toNat_shiftLeft, UInt64.reduceToNat, Nat.reduceMod, Nat.one_shiftLeft]
  exact Nat.mod_eq_of_lt (asertPoly_lt hf)

theorem toNat_asertFactor {frac : UInt64} (hf : frac.toNat < 65536) :
    (asertFactor frac).toNat = asertFactorNat frac.toNat := by
  have hdiv : asertPoly frac.toNat / 2 ^ 48 < 65536 :=
    Nat.div_lt_of_lt_mul (by simpa using asertPoly_lt hf)
  simp only [asertFactor, UInt64.toNat_toUInt32, UInt64.toNat_add, UInt64.toNat_shiftRight,
    toNat_asertCubic hf, UInt64.reduceToNat, Nat.reduceMod, Nat.shiftRight_eq_div_pow]
  unfold asertFactorNat
  omega

theorem asertFactorNat_mono {f g : Nat} (h : f ≤ g) : asertFactorNat f ≤ asertFactorNat g :=
  Nat.add_le_add_left (Nat.div_le_div_right (asertPoly_mono h)) 65536

theorem asertFactorNat_le {f : Nat} (hf : f < 65536) : asertFactorNat f ≤ 131071 := by
  have hdiv : asertPoly f / 2 ^ 48 < 65536 := Nat.div_lt_of_lt_mul (by simpa using asertPoly_lt hf)
  unfold asertFactorNat
  omega

/-- The factor of the last fraction is below twice the factor of the first, so
the step to the next integer part does not go down. -/
theorem asertFactorNat_wrap : asertFactorNat (65536 - 1) ≤ 2 * asertFactorNat 0 := by
  decide

end factor

section exponent

variable {sp t h H e : Int}

theorem asertExponent_eq_some_iff :
    asertExponent sp t h H = some e ↔
      0 ≤ h ∧ IsInt64 (sp * h) ∧ IsInt64 (t - sp * h) ∧ IsInt64 |t - sp * h| ∧ |t - sp * h| < 2 ^ 47 ∧
        IsInt64 (h + 1) ∧ IsInt64 (sp * (h + 1)) ∧ IsInt64 (t - sp * (h + 1)) ∧
        IsInt64 ((t - sp * (h + 1)) * 65536) ∧ H ≠ 0 ∧
        IsInt64 (((t - sp * (h + 1)) * 65536).tdiv H) ∧ ((t - sp * (h + 1)) * 65536).tdiv H = e := by
  simp [asertExponent, checkedInt64, Option.bind_eq_some_iff, guard]

theorem asertExponent_eq (he : asertExponent sp t h H = some e) :
    e = ((t - sp * (h + 1)) * 65536).tdiv H ∧ IsInt64 e := by
  obtain ⟨-, -, -, -, -, -, -, -, -, -, hrange, rfl⟩ := asertExponent_eq_some_iff.1 he
  exact ⟨rfl, hrange⟩

/-- At most `2 ^ 31` half-lives behind or ahead of schedule, the exponent is
at most `2 ^ 47` in size. -/
theorem natAbs_asertExponent_le (hH : 0 < H) (hwin : |t - sp * (h + 1)| ≤ 2 ^ 31 * H)
    (he : asertExponent sp t h H = some e) : e.natAbs ≤ 2 ^ 47 := by
  have hHabs : (H.natAbs : Int) = H := Int.natAbs_of_nonneg hH.le
  have hX : (t - sp * (h + 1)).natAbs ≤ 2 ^ 31 * H.natAbs := by
    rw [Int.abs_eq_natAbs] at hwin
    omega
  have h65536 : Int.natAbs 65536 = 65536 := rfl
  rw [(asertExponent_eq he).1, Int.natAbs_tdiv, Int.natAbs_mul, h65536]
  exact Nat.div_le_of_le_mul (by omega)

theorem asertExponent_le_of_time {t₁ t₂ e₁ e₂ : Int} (hH : 0 < H) (ht : t₁ ≤ t₂)
    (he₁ : asertExponent sp t₁ h H = some e₁) (he₂ : asertExponent sp t₂ h H = some e₂) : e₁ ≤ e₂ := by
  rw [(asertExponent_eq he₁).1, (asertExponent_eq he₂).1]
  apply Int.tdiv_le_tdiv hH
  omega

theorem asertExponent_le_of_height {h₁ h₂ e₁ e₂ : Int} (hH : 0 < H) (hsp : 0 ≤ sp) (hh : h₁ ≤ h₂)
    (he₁ : asertExponent sp t h₁ H = some e₁) (he₂ : asertExponent sp t h₂ H = some e₂) : e₂ ≤ e₁ := by
  rw [(asertExponent_eq he₁).1, (asertExponent_eq he₂).1]
  apply Int.tdiv_le_tdiv hH
  have hmul : sp * (h₁ + 1) ≤ sp * (h₂ + 1) := Int.mul_le_mul_of_nonneg_left (by omega) hsp
  omega

end exponent

section target

/-- The target before the clamp, computed exactly: `refTarget` times
`2 ^ (exponent / 65536 - 16)` and the factor of the fraction. -/
def asertTarget (refTarget : Nat) (exponent : Int) : Nat :=
  fixedExp asertFactorNat 65536 16 refTarget exponent

theorem asertTarget_mono (refTarget : Nat) : Monotone (asertTarget refTarget) :=
  fixedExp_mono (by decide) (fun f _ => asertFactorNat_mono (Nat.le_succ f)) asertFactorNat_wrap 16
    refTarget

theorem clampTarget_mono {x y L : Nat} (hL : 1 ≤ L) (h : x ≤ y) : clampTarget x L ≤ clampTarget y L := by
  unfold clampTarget
  split_ifs <;> omega

theorem clampTarget_bounds (x : Nat) {L : Nat} (hL : 1 ≤ L) : 1 ≤ clampTarget x L ∧ clampTarget x L ≤ L := by
  unfold clampTarget
  split_ifs <;> omega

theorem shiftLeft_mod_shiftRight_eq_iff {P k : Nat} :
    ((P <<< k) % 2 ^ 256) >>> k = P ↔ P * 2 ^ k < 2 ^ 256 := by
  rw [Nat.shiftLeft_eq, Nat.shiftRight_eq_div_pow]
  constructor
  · intro h
    have hlt := Nat.mod_lt (P * 2 ^ k) (Nat.two_pow_pos 256)
    calc P * 2 ^ k = P * 2 ^ k % 2 ^ 256 / 2 ^ k * 2 ^ k := by rw [h]
      _ ≤ P * 2 ^ k % 2 ^ 256 := Nat.div_mul_le_self _ _
      _ < 2 ^ 256 := hlt
  · intro h
    rw [Nat.mod_eq_of_lt h, Nat.mul_div_cancel _ (Nat.two_pow_pos k)]

/-- While the shift count is below `2 ^ 32` in size, the shifts of
`arith_uint256` and the overflow check give the exact scaling, up to the
clamp. -/
theorem clampTarget_shiftTarget {P L : Nat} {s : Int} (hL1 : 1 ≤ L) (hL : L < 2 ^ 256)
    (hs : -2 ^ 32 < s ∧ s < 2 ^ 32) :
    clampTarget (shiftTarget P s L) L = clampTarget (shiftBy P s) L := by
  simp only [shiftTarget]
  split_ifs with hle hover
  · have hright : (-s % (2 ^ 32 : Int)).toNat = (-s).toNat := by omega
    rw [shiftBy_of_nonpos hle, hright, Nat.shiftRight_eq_div_pow]
  · have hleft : (s % (2 ^ 32 : Int)).toNat = s.toNat := by omega
    rw [hleft, Ne, shiftLeft_mod_shiftRight_eq_iff] at hover
    rw [shiftBy_of_pos (by omega)]
    unfold clampTarget
    split_ifs <;> omega
  · have hleft : (s % (2 ^ 32 : Int)).toNat = s.toNat := by omega
    rw [hleft, not_not, shiftLeft_mod_shiftRight_eq_iff] at hover
    rw [hleft, shiftBy_of_pos (by omega), Nat.shiftLeft_eq, Nat.mod_eq_of_lt hover]

theorem shiftRight_sixteen (e : Int) : e >>> (16 : Nat) = e / 65536 := by
  rw [Int.shiftRight_eq_div_pow]
  rfl

variable {R L : Nat} {sp t h H : Int} {r : Nat}

/-- What `CalculateASERT` does: the asserts on the targets, the exponent, and
the shifted and clamped target. The assert on the split of the exponent and
the subtraction of 16 never fail. -/
theorem calculateASERT_eq_some_iff :
    calculateASERT R sp t h L H = some r ↔ 0 < R ∧ R ≤ L ∧ ∃ e, asertExponent sp t h H = some e ∧
      r = clampTarget (shiftTarget (R * (asertFactor (e % 65536).toNat.toUInt64).toNat % 2 ^ 256)
        (e / 65536 - 16) L) L := by
  simp [calculateASERT, Option.bind_eq_some_iff, guard, checkedInt64, shiftRight_sixteen]
  constructor
  · rintro ⟨⟨hR, hRL⟩, e, he, -, -, rfl⟩
    exact ⟨hR, hRL, e, he, rfl⟩
  · rintro ⟨hR, hRL, e, he, rfl⟩
    have hrange := (asertExponent_eq he).2
    unfold IsInt64 int64Min int64Max at hrange ⊢
    exact ⟨⟨hR, hRL⟩, e, he, by omega, by omega, rfl⟩

/-- The result is always in `[1, powLimit]`. -/
theorem calculateASERT_bounds (hr : calculateASERT R sp t h L H = some r) : 1 ≤ r ∧ r ≤ L := by
  obtain ⟨hR, hRL, e, -, rfl⟩ := calculateASERT_eq_some_iff.1 hr
  exact clampTarget_bounds _ (by omega)

/-- For `powLimit < 2 ^ 239` and an exponent of at most `2 ^ 47` in size, the
result is the clamped exact target. -/
theorem calculateASERT_eq_clamp {e : Int} (hL : L < 2 ^ 239) (hr : calculateASERT R sp t h L H = some r)
    (he : asertExponent sp t h H = some e) (hwin : e.natAbs ≤ 2 ^ 47) :
    r = clampTarget (asertTarget R e) L := by
  obtain ⟨hR, hRL, e', he', rfl⟩ := calculateASERT_eq_some_iff.1 hr
  rw [he] at he'
  cases he'
  have hfrac : ((e % 65536).toNat.toUInt64).toNat = (e % 65536).toNat := by
    simp
    omega
  have hF := asertFactorNat_le (show (e % 65536).toNat < 65536 by omega)
  have hP : R * asertFactorNat (e % 65536).toNat < 2 ^ 256 :=
    calc R * asertFactorNat (e % 65536).toNat ≤ L * 131071 := Nat.mul_le_mul hRL hF
      _ < 2 ^ 256 := by omega
  rw [toNat_asertFactor (by omega), hfrac, Nat.mod_eq_of_lt hP,
    clampTarget_shiftTarget (by omega) (by omega) (by omega)]
  rfl

end target

section results

variable {R L : Nat} {sp h H : Int}

/-- Non-decreasing in `nTimeDiff`, while the time behind schedule stays
within `2 ^ 31` half-lives. -/
theorem calculateASERT_mono_time {t₁ t₂ : Int} {r₁ r₂ : Nat} (hL : L < 2 ^ 239) (hH : 0 < H)
    (ht : t₁ ≤ t₂) (hw₁ : |t₁ - sp * (h + 1)| ≤ 2 ^ 31 * H) (hw₂ : |t₂ - sp * (h + 1)| ≤ 2 ^ 31 * H)
    (hr₁ : calculateASERT R sp t₁ h L H = some r₁) (hr₂ : calculateASERT R sp t₂ h L H = some r₂) :
    r₁ ≤ r₂ := by
  obtain ⟨hR, hRL, e₁, he₁, -⟩ := calculateASERT_eq_some_iff.1 hr₁
  obtain ⟨-, -, e₂, he₂, -⟩ := calculateASERT_eq_some_iff.1 hr₂
  rw [calculateASERT_eq_clamp hL hr₁ he₁ (natAbs_asertExponent_le hH hw₁ he₁),
    calculateASERT_eq_clamp hL hr₂ he₂ (natAbs_asertExponent_le hH hw₂ he₂)]
  exact clampTarget_mono (by omega) (asertTarget_mono R (asertExponent_le_of_time hH ht he₁ he₂))

/-- Non-increasing in `nHeightDiff` for a non-negative spacing, under the same
window. -/
theorem calculateASERT_anti_height {t h₁ h₂ : Int} {r₁ r₂ : Nat} (hL : L < 2 ^ 239) (hH : 0 < H)
    (hsp : 0 ≤ sp) (hh : h₁ ≤ h₂) (hw₁ : |t - sp * (h₁ + 1)| ≤ 2 ^ 31 * H)
    (hw₂ : |t - sp * (h₂ + 1)| ≤ 2 ^ 31 * H)
    (hr₁ : calculateASERT R sp t h₁ L H = some r₁) (hr₂ : calculateASERT R sp t h₂ L H = some r₂) :
    r₂ ≤ r₁ := by
  obtain ⟨hR, hRL, e₁, he₁, -⟩ := calculateASERT_eq_some_iff.1 hr₁
  obtain ⟨-, -, e₂, he₂, -⟩ := calculateASERT_eq_some_iff.1 hr₂
  rw [calculateASERT_eq_clamp hL hr₁ he₁ (natAbs_asertExponent_le hH hw₁ he₁),
    calculateASERT_eq_clamp hL hr₂ he₂ (natAbs_asertExponent_le hH hw₂ he₂)]
  exact clampTarget_mono (by omega)
    (asertTarget_mono R (asertExponent_le_of_height hH hsp hh he₁ he₂))

/-- With a non-negative spacing, the asserts, and products of the spacing and
the height difference that fit an `int64_t`, nothing overflows as long as
`nTimeDiff - nPowTargetSpacing * (nHeightDiff + 1)` is at least `-2 ^ 47`. -/
theorem calculateASERT_isSome {t : Int} (hR : 0 < R) (hRL : R ≤ L) (hh : 0 ≤ h) (hH : 0 < H)
    (hsp : 0 ≤ sp) (hmul : IsInt64 (sp * h)) (hnext : IsInt64 (sp * (h + 1))) (hh1 : IsInt64 (h + 1))
    (hd : |t - sp * h| < 2 ^ 47) (hx : -2 ^ 47 ≤ t - sp * (h + 1)) :
    ∃ r, calculateASERT R sp t h L H = some r := by
  have hsplit : sp * (h + 1) = sp * h + sp := by ring
  have habs := abs_lt.mp hd
  have habs0 := abs_nonneg (t - sp * h)
  have hdiv : (((t - sp * (h + 1)) * 65536).tdiv H).natAbs ≤ ((t - sp * (h + 1)) * 65536).natAbs := by
    rw [Int.natAbs_tdiv]
    exact Nat.div_le_self _ _
  have hneg : (t - sp * (h + 1)) * 65536 ≤ 0 → ((t - sp * (h + 1)) * 65536).tdiv H ≤ 0 := fun hle =>
    (Int.tdiv_le_tdiv hH hle).trans_eq (Int.zero_tdiv H)
  have hpos : 0 ≤ (t - sp * (h + 1)) * 65536 → 0 ≤ ((t - sp * (h + 1)) * 65536).tdiv H := fun hle =>
    (Int.zero_tdiv H).symm.le.trans (Int.tdiv_le_tdiv hH hle)
  have he : asertExponent sp t h H = some (((t - sp * (h + 1)) * 65536).tdiv H) := by
    unfold IsInt64 int64Min int64Max at hmul hnext hh1
    refine asertExponent_eq_some_iff.2 ⟨hh, hmul, ?_, ?_, hd, hh1, hnext, ?_, ?_, by omega, ?_, rfl⟩
    all_goals unfold IsInt64 int64Min int64Max
    all_goals omega
  exact ⟨_, calculateASERT_eq_some_iff.2 ⟨hR, hRL, _, he, rfl⟩⟩

/-- `CalculateASERT` for `powLimit < 2 ^ 239`: the factor cubic does not wrap
and gives a factor in `[65536, 131071]`; the result is in `[1, powLimit]`;
nothing overflows down to `-2 ^ 47` behind schedule; and within `2 ^ 31`
half-lives of schedule the result is non-decreasing in `nTimeDiff` and
non-increasing in `nHeightDiff`. -/
theorem calculateASERT_bounded_monotone :
    (∀ frac : UInt64, frac.toNat < 65536 →
      asertPoly frac.toNat < 2 ^ 64 ∧ (asertCubic frac).toNat = asertPoly frac.toNat ∧
        65536 ≤ (asertFactor frac).toNat ∧ (asertFactor frac).toNat ≤ 131071) ∧
    (∀ (R L : Nat) (sp t h H : Int) (r : Nat), calculateASERT R sp t h L H = some r → 1 ≤ r ∧ r ≤ L) ∧
    (∀ (R L : Nat) (sp t h H : Int), 0 < R → R ≤ L → 0 ≤ h → 0 < H → 0 ≤ sp → IsInt64 (sp * h) →
      IsInt64 (sp * (h + 1)) → IsInt64 (h + 1) → |t - sp * h| < 2 ^ 47 → -2 ^ 47 ≤ t - sp * (h + 1) →
        ∃ r, calculateASERT R sp t h L H = some r) ∧
    (∀ (R L : Nat) (sp t₁ t₂ h H : Int) (r₁ r₂ : Nat), L < 2 ^ 239 → 0 < H → t₁ ≤ t₂ →
      |t₁ - sp * (h + 1)| ≤ 2 ^ 31 * H → |t₂ - sp * (h + 1)| ≤ 2 ^ 31 * H →
        calculateASERT R sp t₁ h L H = some r₁ → calculateASERT R sp t₂ h L H = some r₂ → r₁ ≤ r₂) ∧
    (∀ (R L : Nat) (sp t h₁ h₂ H : Int) (r₁ r₂ : Nat), L < 2 ^ 239 → 0 < H → 0 ≤ sp → h₁ ≤ h₂ →
      |t - sp * (h₁ + 1)| ≤ 2 ^ 31 * H → |t - sp * (h₂ + 1)| ≤ 2 ^ 31 * H →
        calculateASERT R sp t h₁ L H = some r₁ → calculateASERT R sp t h₂ L H = some r₂ → r₂ ≤ r₁) := by
  refine ⟨fun frac hf => ⟨asertPoly_lt hf, toNat_asertCubic hf, ?_, ?_⟩, fun _ _ _ _ _ _ _ hr =>
    calculateASERT_bounds hr, fun _ _ _ _ _ _ => calculateASERT_isSome, fun _ _ _ _ _ _ _ _ _ =>
    calculateASERT_mono_time, fun _ _ _ _ _ _ _ _ _ => calculateASERT_anti_height⟩
  · rw [toNat_asertFactor hf]
    exact Nat.le_add_right 65536 _
  · rw [toNat_asertFactor hf]
    exact asertFactorNat_le hf

theorem calculateASERT_bounded_monotone_mainnet :
    ∃ r₁ r₂, calculateASERT (2 ^ 232 - 1) 78 600 0 (2 ^ 232 - 1) 14400 = some r₁ ∧
      calculateASERT (2 ^ 232 - 1) 78 6000 0 (2 ^ 232 - 1) 14400 = some r₂ ∧ r₁ ≤ r₂ := by
  obtain ⟨r₁, hr₁⟩ := calculateASERT_bounded_monotone.2.2.1 (2 ^ 232 - 1) (2 ^ 232 - 1) 78 600 0 14400
    (by decide) le_rfl le_rfl (by decide) (by decide) (by decide) (by decide) (by decide) (by decide)
    (by decide)
  obtain ⟨r₂, hr₂⟩ := calculateASERT_bounded_monotone.2.2.1 (2 ^ 232 - 1) (2 ^ 232 - 1) 78 6000 0 14400
    (by decide) le_rfl le_rfl (by decide) (by decide) (by decide) (by decide) (by decide) (by decide)
    (by decide)
  exact ⟨r₁, r₂, hr₁, hr₂, calculateASERT_bounded_monotone.2.2.2.1 _ _ 78 600 6000 0 14400 r₁ r₂
    (by decide) (by decide) (by decide) (by decide) (by decide) hr₁ hr₂⟩

/-- With the main network's spacing of 78 seconds and half-life of four
hours, and `refTarget = powLimit = 2 ^ 232 - 1`: at
`nTimeDiff = 1 - 2 ^ 47` the asserts hold but
`(nTimeDiff - 78) * 65536` overflows `int64_t`; and near
`nTimeDiff = -61847528817523` the shift count reaches `-2 ^ 32`, which the
`unsigned int` parameter of `>>=` turns into a shift by 0. One second later
the shift is by `2 ^ 32 - 1`. The result falls from `powLimit` to 1. -/
theorem calculateASERT_breaks :
    (0 ≤ (0 : Int) ∧ |(1 - 2 ^ 47 : Int) - 78 * 0| < 2 ^ 47 ∧
      ¬IsInt64 (((1 - 2 ^ 47 : Int) - 78 * (0 + 1)) * 65536) ∧
      calculateASERT (2 ^ 232 - 1) 78 (1 - 2 ^ 47) 0 (2 ^ 232 - 1) 14400 = none) ∧
    calculateASERT (2 ^ 232 - 1) 78 (-61847528817523) 0 (2 ^ 232 - 1) 14400 = some (2 ^ 232 - 1) ∧
    calculateASERT (2 ^ 232 - 1) 78 (-61847528817522) 0 (2 ^ 232 - 1) 14400 = some 1 := by
  refine ⟨⟨le_rfl, by decide, by decide, by decide⟩, by decide, by decide⟩

end results

end Membercoin
