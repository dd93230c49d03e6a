import Membercoin.Arith.Uint256
import Membercoin.Consensus.Asert
import Membercoin.Serialize.Compressor

/-!
# Interest on coins (primitives/transaction.cpp)

Membercoin values a coin with interest. `GetInterest` multiplies the amount
by `rateTable[blocks] / rateTable[0]`, where `blocks` is the coin's age capped
at `MAXINTERESTPERIOD`, a year of 1108 blocks a day. `initRateTable` fills the
table from `1 << 62` by `r + (r >> 22)`, a rate of `2 ^ -22` a block, in
`uint64_t`. `getRateForAmount` takes the product in `arith_uint256`, divides
it by `rateTable[0]`, keeps the low 64 bits and subtracts the amount, and
`GetInterest` adds the amount back in `int64_t`.

The recurrence keeps `r i * (2 ^ 22 - i) ≤ 2 ^ 62 * 2 ^ 22`, a form of
`(1 + 2 ^ -22) ^ i ≤ 1 / (1 - i / 2 ^ 22)` in whole numbers
(`rateNat_mul_le`). So within the table no entry reaches `2 ^ 63`, and
`initRateTable` never wraps (`rateTable_toNat`); within a year the rate stays
below `10 / 9` (`rateNat_le_ninth`). For every amount in `[0, MAX_MONEY]` and
heights `0 ≤ hOut ≤ hVal`, `GetInterest` is exactly
`nValue * rateTable[blocks] / 2 ^ 62` rounded down, with no wrap in the
product, the truncation or the signed arithmetic (`getInterest_eq`).
-/

namespace Membercoin

/-- `ONEDAY`: blocks in a day. -/
def oneDay : Nat := 1108

/-- `MAXINTERESTPERIOD`: a year of blocks. The table holds one entry more. -/
def maxInterestPeriod : Nat := oneDay * 365

/-- `rateTable[i]` after `initRateTable`: `1 << 62`, then each entry the one
before plus its part `>> 22`, in `uint64_t`. -/
def rateTable : Nat → UInt64
  | 0 => (1 : UInt64) <<< 62
  | i + 1 =>
    let r := rateTable i
    r + (r >>> 22)

namespace BaseUint

/-- `base_uint(uint64_t b)`: the low and the high 32 bits of `b`, then zero
limbs. -/
def ofUInt64 (b : UInt64) : BaseUint 8 := ⟨[b.toUInt32, (b >>> 32).toUInt32, 0, 0, 0, 0, 0, 0], rfl⟩

/-- `GetLow64`: `pn[0] | (uint64_t)pn[1] << 32`. -/
def getLow64 (a : BaseUint 8) : Nat := (a.pn.getD 0 0).toNat ||| (a.pn.getD 1 0).toNat <<< 32

theorem toNat_ofUInt64 (b : UInt64) : (ofUInt64 b).toNat = b.toNat := by
  have hb := b.toNat_lt
  simp only [ofUInt64, toNat, List.map_cons, List.map_nil, UInt64.toNat_toUInt32, toNat_high, Nat.ofDigits_cons,
    Nat.ofDigits_nil, UInt32.toNat_zero]
  rw [Nat.mod_eq_of_lt (show b.toNat / 2 ^ 32 < 2 ^ 32 by omega)]
  omega

theorem getLow64_eq (a : BaseUint 8) : a.getLow64 = a.toNat % 2 ^ 64 := by
  obtain ⟨pn, hpn⟩ := a
  match pn, hpn with
  | p₀ :: p₁ :: rest, _ =>
    have h₀ := p₀.toNat_lt
    have h₁ := p₁.toNat_lt
    simp only [getLow64, toNat, List.getD_cons_zero, List.getD_cons_succ, List.map_cons, Nat.ofDigits_cons]
    rw [Nat.lor_comm, ← Nat.shiftLeft_add_eq_or_of_lt h₀, Nat.shiftLeft_eq]
    omega

end BaseUint

/-- `getRateForAmount(periods, theAmount)`: the amount, read as `uint64_t`,
times `rateTable[periods]` in `arith_uint256`, over `rateTable[0]`, its low
64 bits less the amount, read back as `int64_t`. A read past the table is
undefined, and so is a division by zero, which throws `uint_error`: both
are none. -/
def getRateForAmount (periods : Nat) (theAmount : Int) : Option Int :=
  if maxInterestPeriod < periods then none
  else do
    let amount256 := BaseUint.ofUInt64 (UInt64.ofNat (theAmount % 2 ^ 64).toNat)
    let rate256 := BaseUint.ofUInt64 (rateTable periods)
    let rate0256 := BaseUint.ofUInt64 (rateTable 0)
    let product := amount256.mul rate256
    let result ← (product.divide rate0256).toOption
    pure (CTxOutCompressor.toInt64 ((result.getLow64 + 2 ^ 64 - (theAmount % 2 ^ 64).toNat) % 2 ^ 64))

/-- `GetInterest(nValue, outputBlockHeight, valuationHeight)`: the amount
itself for a negative height or a valuation before the output; otherwise the
amount plus its interest over the age capped at `MAXINTERESTPERIOD`, a sum
in `int64_t` whose overflow is undefined. -/
def getInterest (nValue : Int) (outputBlockHeight valuationHeight : Int) : Option Int :=
  if outputBlockHeight < 0 ∨ valuationHeight < 0 ∨ valuationHeight < outputBlockHeight then some nValue
  else do
    let blocks := min maxInterestPeriod (valuationHeight - outputBlockHeight).toNat
    let standardInterest ← getRateForAmount blocks nValue
    checkedInt64 (nValue + standardInterest)

/-- `CTxOut::GetValueWithInterest`. -/
def CTxOut.getValueWithInterest (out : CTxOut) (outputBlockHeight valuationHeight : Int) : Option Int :=
  getInterest out.nValue outputBlockHeight valuationHeight

/-! ### The table -/

/-- The table's recurrence on numbers, without the wrap of `uint64_t`. -/
def rateNat : Nat → Nat
  | 0 => 2 ^ 62
  | i + 1 => rateNat i + rateNat i / 2 ^ 22

theorem rateNat_le_succ (i : Nat) : rateNat i ≤ rateNat (i + 1) := Nat.le_add_right _ _

theorem rateNat_mono {i j : Nat} (h : i ≤ j) : rateNat i ≤ rateNat j :=
  monotone_nat_of_le_succ rateNat_le_succ h

theorem two_pow_le_rateNat (i : Nat) : 2 ^ 62 ≤ rateNat i := rateNat_mono (Nat.zero_le i)

/-- Compound growth at `2 ^ -22` a step stays below `1 / (1 - i / 2 ^ 22)`:
a step multiplies `r i` by at most `1 + 2 ^ -22`, and
`(1 + 2 ^ -22) * (2 ^ 22 - i - 1) ≤ 2 ^ 22 - i`. -/
theorem rateNat_mul_le : ∀ i ≤ 2 ^ 22, rateNat i * (2 ^ 22 - i) ≤ 2 ^ 62 * 2 ^ 22
  | 0, _ => le_rfl
  | i + 1, hi => by
    have ih := rateNat_mul_le i (by omega)
    have hpart : rateNat i / 2 ^ 22 * (2 ^ 22 - (i + 1)) ≤ rateNat i :=
      calc rateNat i / 2 ^ 22 * (2 ^ 22 - (i + 1)) ≤ rateNat i / 2 ^ 22 * 2 ^ 22 :=
            Nat.mul_le_mul_left _ (Nat.sub_le _ _)
        _ ≤ rateNat i := Nat.div_mul_le_self _ _
    calc rateNat (i + 1) * (2 ^ 22 - (i + 1))
        = rateNat i * (2 ^ 22 - (i + 1)) + rateNat i / 2 ^ 22 * (2 ^ 22 - (i + 1)) := Nat.add_mul _ _ _
      _ ≤ rateNat i * (2 ^ 22 - (i + 1)) + rateNat i := Nat.add_le_add_left hpart _
      _ = rateNat i * (2 ^ 22 - i) := by
        rw [show 2 ^ 22 - i = 2 ^ 22 - (i + 1) + 1 by omega, Nat.mul_succ]
      _ ≤ 2 ^ 62 * 2 ^ 22 := ih

/-- Within a year the rate is below `10 / 9`. -/
theorem rateNat_le_ninth {i : Nat} (hi : i ≤ maxInterestPeriod) : 9 * rateNat i ≤ 10 * 2 ^ 62 := by
  have hyear : i ≤ 404420 := hi
  have h := rateNat_mul_le i (by omega)
  have hleft : rateNat i * 3789884 ≤ rateNat i * (2 ^ 22 - i) := Nat.mul_le_mul_left _ (by omega)
  omega

theorem rateNat_lt {i : Nat} (hi : i ≤ maxInterestPeriod) : rateNat i < 2 ^ 63 := by
  have := rateNat_le_ninth hi
  omega

/-- `initRateTable` does not wrap: each entry is the recurrence's number. -/
theorem rateTable_toNat : ∀ {i : Nat}, i ≤ maxInterestPeriod → (rateTable i).toNat = rateNat i
  | 0, _ => rfl
  | i + 1, hi => by
    have ih := rateTable_toNat (i := i) (by omega)
    have hlt := rateNat_lt (i := i) (by omega)
    simp only [rateTable, rateNat, UInt64.toNat_add, UInt64.toNat_shiftRight, ih]
    rw [show (22 : UInt64).toNat % 64 = 22 from rfl, Nat.shiftRight_eq_div_pow, Nat.mod_eq_of_lt (by omega)]

/-! ### The valuation -/

/-- `operator/=` by a nonzero divisor returns the quotient rounded down. -/
theorem divide_of_toNat_ne_zero (a b : BaseUint 8) (hb : b.toNat ≠ 0) :
    ∃ q, a.divide b = .ok q ∧ q.toNat = a.toNat / b.toNat := by
  have h := BaseUint.divide_toNat a b (by decide)
  rw [if_neg hb] at h
  cases hd : a.divide b with
  | error e => rw [hd] at h; cases h
  | ok q => rw [hd] at h; exact ⟨q, rfl, Except.ok.inj h⟩

/-- With a year's interest at most, an amount grows by at most a ninth. -/
theorem mul_rateNat_div_bounds {p : Nat} (hp : p ≤ maxInterestPeriod) (n : Nat) :
    n ≤ n * rateNat p / 2 ^ 62 ∧ 9 * (n * rateNat p / 2 ^ 62) ≤ 10 * n := by
  constructor
  · rw [Nat.le_div_iff_mul_le (by positivity)]
    exact Nat.mul_le_mul_left _ (two_pow_le_rateNat p)
  · calc 9 * (n * rateNat p / 2 ^ 62) ≤ 9 * (n * rateNat p) / 2 ^ 62 := Nat.mul_div_le_mul_div_assoc _ _ _
      _ ≤ 10 * n * 2 ^ 62 / 2 ^ 62 := by
        apply Nat.div_le_div_right
        calc 9 * (n * rateNat p) = n * (9 * rateNat p) := by ring
          _ ≤ n * (10 * 2 ^ 62) := Nat.mul_le_mul_left _ (rateNat_le_ninth hp)
          _ = 10 * n * 2 ^ 62 := by ring
      _ = 10 * n := Nat.mul_div_cancel _ (by positivity)

/-- On an amount below `2 ^ 63`, `getRateForAmount` is the interest rounded
down: no wrap in the product, the truncation to 64 bits or the
subtraction. -/
theorem getRateForAmount_eq {periods : Nat} (hp : periods ≤ maxInterestPeriod) {n : Nat} (hn : n < 2 ^ 63) :
    getRateForAmount periods n = some ((n * rateNat periods / 2 ^ 62 - n : Nat) : Int) := by
  have hr := rateNat_lt hp
  have hamount : ((n : Int) % 2 ^ 64).toNat = n := by
    rw [Int.emod_eq_of_lt (Int.natCast_nonneg n) (by omega), Int.toNat_natCast]
  have hamount64 : (UInt64.ofNat n).toNat = n := by
    rw [UInt64.toNat_ofNat', Nat.mod_eq_of_lt (by omega)]
  have hprod : n * rateNat periods < 2 ^ 256 :=
    calc n * rateNat periods ≤ 2 ^ 63 * 2 ^ 63 := Nat.mul_le_mul hn.le hr.le
      _ < 2 ^ 256 := by norm_num
  have hq := mul_rateNat_div_bounds hp n
  obtain ⟨q, hq, hqval⟩ := divide_of_toNat_ne_zero
    ((BaseUint.ofUInt64 (UInt64.ofNat n)).mul (BaseUint.ofUInt64 (rateTable periods)))
    (BaseUint.ofUInt64 (rateTable 0)) (by rw [BaseUint.toNat_ofUInt64]; decide)
  rw [BaseUint.toNat_mul, BaseUint.toNat_ofUInt64, BaseUint.toNat_ofUInt64, BaseUint.toNat_ofUInt64, hamount64,
    rateTable_toNat hp, rateTable_toNat (Nat.zero_le _), show 32 * 8 = 256 from rfl, Nat.mod_eq_of_lt hprod,
    show rateNat 0 = 2 ^ 62 from rfl] at hqval
  simp only [getRateForAmount, if_neg (Nat.not_lt.mpr hp), hamount, hq, Except.toOption, Option.pure_def,
    Option.bind_eq_bind, Option.bind_some, BaseUint.getLow64_eq, hqval]
  rw [Nat.mod_eq_of_lt (show n * rateNat periods / 2 ^ 62 < 2 ^ 64 by omega),
    show n * rateNat periods / 2 ^ 62 + 2 ^ 64 - n = n * rateNat periods / 2 ^ 62 - n + 2 ^ 64 by omega,
    Nat.add_mod_right, Nat.mod_eq_of_lt (by omega), CTxOutCompressor.toInt64, if_pos (by omega)]

/-- `GetInterest` of an amount in `[0, MAX_MONEY]`, valued at or after its
output's height: the amount times the rate of its age, rounded down. -/
theorem getInterest_eq {nValue outputBlockHeight valuationHeight : Int} (h0 : 0 ≤ nValue) (hmax : nValue ≤ maxMoney)
    (hout : 0 ≤ outputBlockHeight) (hval : outputBlockHeight ≤ valuationHeight) :
    getInterest nValue outputBlockHeight valuationHeight =
      some ((nValue.toNat * rateNat (min maxInterestPeriod (valuationHeight - outputBlockHeight).toNat) / 2 ^ 62 :
        Nat) : Int) := by
  obtain ⟨n, rfl⟩ := Int.eq_ofNat_of_zero_le h0
  rw [getInterest, if_neg (by omega)]
  dsimp only
  generalize hb : min maxInterestPeriod (valuationHeight - outputBlockHeight).toNat = blocks
  have hblocks : blocks ≤ maxInterestPeriod := hb ▸ min_le_left _ _
  have hn : n ≤ 100000000000000000 := by
    have : (maxMoney : Int) = 100000000000000000 := rfl
    omega
  have hq := mul_rateNat_div_bounds hblocks n
  rw [getRateForAmount_eq hblocks (by omega), Option.bind_eq_bind, Option.bind_some, checkedInt64,
    if_pos (by unfold IsInt64 int64Min int64Max; omega), Int.toNat_natCast]
  congr 1
  omega

/-! ### The valuation over all heights -/

/-- The age `GetInterest` pays interest for: none for a negative height or a
valuation before the output, else the blocks between, capped at a year. -/
def interestAge (outputBlockHeight valuationHeight : Int) : Nat :=
  if outputBlockHeight < 0 ∨ valuationHeight < 0 ∨ valuationHeight < outputBlockHeight then 0
  else min maxInterestPeriod (valuationHeight - outputBlockHeight).toNat

theorem interestAge_le (outputBlockHeight valuationHeight : Int) :
    interestAge outputBlockHeight valuationHeight ≤ maxInterestPeriod := by
  unfold interestAge
  split_ifs
  · exact Nat.zero_le _
  · exact min_le_left _ _

/-- A later valuation pays for at least as many blocks. -/
theorem interestAge_mono {outputBlockHeight valuationHeight valuationHeight' : Int}
    (h : valuationHeight ≤ valuationHeight') :
    interestAge outputBlockHeight valuationHeight ≤ interestAge outputBlockHeight valuationHeight' := by
  unfold interestAge
  split_ifs with h₁ h₂
  · exact le_rfl
  · exact Nat.zero_le _
  · omega
  · exact min_le_min_left _ (by omega)

/-- The value of an amount with the interest of `blocks` blocks, rounded down. -/
def valueAfter (nValue : Int) (blocks : Nat) : Int := ((nValue.toNat * rateNat blocks / 2 ^ 62 : Nat) : Int)

theorem valueAfter_zero (nValue : Int) (h0 : 0 ≤ nValue) : valueAfter nValue 0 = nValue := by
  rw [valueAfter, show rateNat 0 = 2 ^ 62 from rfl, Nat.mul_div_cancel _ (by positivity)]
  omega

/-- `GetInterest` of an amount in `[0, MAX_MONEY]` at any heights. -/
theorem getInterest_eq_valueAfter {nValue : Int} (h0 : 0 ≤ nValue) (hmax : nValue ≤ maxMoney)
    (outputBlockHeight valuationHeight : Int) :
    getInterest nValue outputBlockHeight valuationHeight =
      some (valueAfter nValue (interestAge outputBlockHeight valuationHeight)) := by
  by_cases h : outputBlockHeight < 0 ∨ valuationHeight < 0 ∨ valuationHeight < outputBlockHeight
  · rw [getInterest, if_pos h, interestAge, if_pos h, valueAfter_zero nValue h0]
  · rw [getInterest_eq h0 hmax (by omega) (by omega), interestAge, if_neg h, valueAfter]

theorem valueAfter_bounds (nValue : Int) (h0 : 0 ≤ nValue) {blocks : Nat} (hb : blocks ≤ maxInterestPeriod) :
    nValue ≤ valueAfter nValue blocks ∧ 9 * valueAfter nValue blocks ≤ 10 * nValue := by
  obtain ⟨hlo, hhi⟩ := mul_rateNat_div_bounds hb nValue.toNat
  unfold valueAfter
  omega

theorem valueAfter_mono_blocks (nValue : Int) {blocks blocks' : Nat} (h : blocks ≤ blocks') :
    valueAfter nValue blocks ≤ valueAfter nValue blocks' := by
  unfold valueAfter
  exact Int.ofNat_le.mpr (Nat.div_le_div_right (Nat.mul_le_mul_left _ (rateNat_mono h)))

theorem valueAfter_mono_value {nValue nValue' : Int} (h : nValue ≤ nValue') (blocks : Nat) :
    valueAfter nValue blocks ≤ valueAfter nValue' blocks := by
  unfold valueAfter
  exact Int.ofNat_le.mpr (Nat.div_le_div_right (Nat.mul_le_mul_right _ (Int.toNat_le_toNat h)))

/-- For an amount in `[0, MAX_MONEY]`, `GetInterest` is defined at every pair
of heights, never below the amount nor more than a ninth above it, and does
not fall as the valuation height rises. -/
theorem getInterest_grows {nValue outputBlockHeight valuationHeight valuationHeight' : Int} (h0 : 0 ≤ nValue)
    (hmax : nValue ≤ maxMoney) (hh : valuationHeight ≤ valuationHeight') :
    ∃ v v', getInterest nValue outputBlockHeight valuationHeight = some v ∧
      getInterest nValue outputBlockHeight valuationHeight' = some v' ∧
      nValue ≤ v ∧ v ≤ v' ∧ 9 * v' ≤ 10 * nValue := by
  refine ⟨_, _, getInterest_eq_valueAfter h0 hmax _ _, getInterest_eq_valueAfter h0 hmax _ _,
    (valueAfter_bounds nValue h0 (interestAge_le _ _)).1, valueAfter_mono_blocks nValue (interestAge_mono hh),
    (valueAfter_bounds nValue h0 (interestAge_le _ _)).2⟩

theorem getInterest_grows_sample :
    (0 : Int) ≤ 5000 ∧ (5000 : Int) ≤ maxMoney ∧ (100 : Int) ≤ 404520 ∧
      ∃ v v', getInterest 5000 0 100 = some v ∧ getInterest 5000 0 404520 = some v' ∧
        5000 ≤ v ∧ v ≤ v' ∧ 9 * v' ≤ 10 * 5000 :=
  ⟨by decide, by decide, by decide, getInterest_grows (by decide) (by decide) (by decide)⟩

/-- Of two amounts in `[0, MAX_MONEY]` at the same heights, the larger is
never worth less with interest. -/
theorem getInterest_mono_value {nValue nValue' : Int} (h0 : 0 ≤ nValue) (hle : nValue ≤ nValue')
    (hmax : nValue' ≤ maxMoney) (outputBlockHeight valuationHeight : Int) :
    ∃ v v', getInterest nValue outputBlockHeight valuationHeight = some v ∧
      getInterest nValue' outputBlockHeight valuationHeight = some v' ∧ v ≤ v' :=
  ⟨_, _, getInterest_eq_valueAfter h0 (hle.trans hmax) _ _, getInterest_eq_valueAfter (h0.trans hle) hmax _ _,
    valueAfter_mono_value hle _⟩

theorem getInterest_mono_value_sample :
    (0 : Int) ≤ 3 ∧ (3 : Int) ≤ 4 ∧ (4 : Int) ≤ maxMoney ∧
      ∃ v v', getInterest 3 10 500 = some v ∧ getInterest 4 10 500 = some v' ∧ v ≤ v' :=
  ⟨by decide, by decide, by decide, getInterest_mono_value (by decide) (by decide) (by decide) 10 500⟩

end Membercoin
