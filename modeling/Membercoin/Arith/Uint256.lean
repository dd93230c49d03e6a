import Membercoin.Arith.Compact
import Membercoin.Lib.Limbs

/-!
# `base_uint`: numbers held in 32-bit limbs (arith_uint256.h, arith_uint256.cpp)

A `base_uint<BITS>` keeps `WIDTH = BITS / 32` limbs `pn`, least significant
first; `arith_uint256` is `base_uint<256>`. Every operator is a loop over the
limbs: the additions and multiplications carry the high half of a 64-bit sum
into the next limb, the shifts split each limb across two, the comparison and
`bits` scan from the top, and the division is bit-serial long division.

The model keeps each loop as the source runs it, over the limb list, and
`toNat` reads the limbs as a number. Each operator computes the operation on
numbers modulo `2 ^ (32 * WIDTH)`: the carry loops by a conservation law over
the limbs written so far, the shifts bit by bit (`Limbs.ofDigits_eq_mod_of_testBit`),
and the division by the invariant of long division. So `arith_uint256` is
arithmetic on the numbers below `2 ^ 256` that `ArithUint256` of the compact
form stands for (`toArith`).
-/

namespace Membercoin

open Limbs

/-- `base_uint<BITS>`: the limbs `pn`, least significant first. -/
@[ext]
structure BaseUint (WIDTH : Nat) where
  pn : List UInt32
  length_pn : pn.length = WIDTH

namespace BaseUint

variable {WIDTH : Nat}

instance : DecidableEq (BaseUint WIDTH) := fun a b => decidable_of_iff (a.pn = b.pn) BaseUint.ext_iff.symm

/-- The number the limbs hold. -/
def toNat (a : BaseUint WIDTH) : Nat := Nat.ofDigits (2 ^ 32) (a.pn.map UInt32.toNat)

/-- `base_uint()`: every limb zero. -/
def zero : BaseUint WIDTH := ⟨List.replicate WIDTH 0, List.length_replicate⟩

/-- `pn[idx] |= v`. -/
def orAt (r : BaseUint WIDTH) (idx : Nat) (v : UInt32) : BaseUint WIDTH :=
  ⟨r.pn.modify idx (· ||| v), by rw [List.length_modify, r.length_pn]⟩

/-! ## The operators -/

/-- `operator~`. -/
def complement (a : BaseUint WIDTH) : BaseUint WIDTH :=
  ⟨a.pn.map (~~~·), by rw [List.length_map, a.length_pn]⟩

/-- The loop of the prefix `operator++`: increment limb `i`, and go on to the
next limb while the increment wrapped to zero and a limb is left. -/
def incLoop : List UInt32 → List UInt32
  | [] => []
  | p :: ps => if p + 1 = 0 then (p + 1) :: incLoop ps else (p + 1) :: ps

theorem length_incLoop : ∀ l : List UInt32, (incLoop l).length = l.length
  | [] => rfl
  | p :: ps => by
    unfold incLoop
    split
    · rw [List.length_cons, List.length_cons, length_incLoop ps]
    · rfl

/-- The prefix `operator++`. -/
def inc (a : BaseUint WIDTH) : BaseUint WIDTH :=
  ⟨incLoop a.pn, by rw [length_incLoop, a.length_pn]⟩

/-- The loop of the prefix `operator--`: decrement limb `i`, and go on while it
wrapped to `0xffffffff` and a limb is left. -/
def decLoop : List UInt32 → List UInt32
  | [] => []
  | p :: ps => if p - 1 = 0xffffffff then (p - 1) :: decLoop ps else (p - 1) :: ps

theorem length_decLoop : ∀ l : List UInt32, (decLoop l).length = l.length
  | [] => rfl
  | p :: ps => by
    unfold decLoop
    split
    · rw [List.length_cons, List.length_cons, length_decLoop ps]
    · rfl

/-- The prefix `operator--`. -/
def dec (a : BaseUint WIDTH) : BaseUint WIDTH :=
  ⟨decLoop a.pn, by rw [length_decLoop, a.length_pn]⟩

/-- Unary `operator-`: the complement, then `ret++`. -/
def neg (a : BaseUint WIDTH) : BaseUint WIDTH := inc (complement a)

/-- The loop of `operator+=`: `n = carry + pn[i] + b.pn[i]`, the low half
stored in `pn[i]` and the high half carried. -/
def addLoop : List UInt32 → List UInt32 → UInt64 → List UInt32
  | p :: ps, q :: qs, carry =>
    let n := carry + p.toUInt64 + q.toUInt64
    (n &&& 0xffffffff).toUInt32 :: addLoop ps qs (n >>> 32)
  | _, _, _ => []

theorem length_addLoop : ∀ (ps qs : List UInt32) (carry : UInt64),
    (addLoop ps qs carry).length = min ps.length qs.length
  | [], _, _ => by simp [addLoop]
  | _ :: _, [], _ => by simp [addLoop]
  | p :: ps, q :: qs, carry => by
    simp only [addLoop, List.length_cons, length_addLoop ps qs, Nat.succ_min_succ]

/-- `operator+=` (and `operator+`). -/
def add (a b : BaseUint WIDTH) : BaseUint WIDTH :=
  ⟨addLoop a.pn b.pn 0, by rw [length_addLoop, a.length_pn, b.length_pn, Nat.min_self]⟩

/-- `operator-=`: `*this += -b`. -/
def sub (a b : BaseUint WIDTH) : BaseUint WIDTH := add a (neg b)

/-- The loop of `operator*=(uint32_t b32)`: `n = carry + b32 * pn[i]`. -/
def mul32Loop (b32 : UInt32) : List UInt32 → UInt64 → List UInt32
  | [], _ => []
  | p :: ps, carry =>
    let n := carry + b32.toUInt64 * p.toUInt64
    (n &&& 0xffffffff).toUInt32 :: mul32Loop b32 ps (n >>> 32)

theorem length_mul32Loop (b32 : UInt32) : ∀ (ps : List UInt32) (carry : UInt64),
    (mul32Loop b32 ps carry).length = ps.length
  | [], _ => rfl
  | p :: ps, carry => by simp only [mul32Loop, List.length_cons, length_mul32Loop b32 ps]

/-- `operator*=(uint32_t)`. -/
def mul32 (a : BaseUint WIDTH) (b32 : UInt32) : BaseUint WIDTH :=
  ⟨mul32Loop b32 a.pn 0, by rw [length_mul32Loop, a.length_pn]⟩

/-- The inner loop of `operator*=(const base_uint &b)` for one row: over the
limbs `pn[i + j]` from `i = 0` while `i + j < WIDTH`, with `b.pn[i]`,
`n = carry + pn[i + j] + a.pn[j] * b.pn[i]`. -/
def mulRow (x : UInt32) : List UInt32 → List UInt32 → UInt64 → List UInt32
  | p :: ps, q :: qs, carry =>
    let n := carry + p.toUInt64 + x.toUInt64 * q.toUInt64
    (n &&& 0xffffffff).toUInt32 :: mulRow x ps qs (n >>> 32)
  | ps, _, _ => ps

theorem length_mulRow (x : UInt32) : ∀ (ps qs : List UInt32) (carry : UInt64),
    (mulRow x ps qs carry).length = ps.length
  | [], _, _ => by simp [mulRow]
  | _ :: _, [], _ => by simp [mulRow]
  | p :: ps, q :: qs, carry => by simp only [mulRow, List.length_cons, length_mulRow x ps qs]

/-- Row `j` of the product: the limbs from `j` up take on `a.pn[j] * b`. -/
def mulStep (a b r : BaseUint WIDTH) (j : Nat) : BaseUint WIDTH :=
  ⟨r.pn.take j ++ mulRow (a.pn.getD j 0) (r.pn.drop j) b.pn 0, by
    rw [List.length_append, length_mulRow, ← List.length_append, List.take_append_drop, r.length_pn]⟩

/-- `operator*=(const base_uint &b)`: the rows `j = 0, …, WIDTH - 1` on a zero
product. -/
def mul (a b : BaseUint WIDTH) : BaseUint WIDTH := (List.range WIDTH).foldl (mulStep a b) zero

/-- Round `i` of the loop of `operator<<=`, with `k = shift / 32` and the shift
now `shift % 32`: limb `i` of the old value, split across limbs `i + k + 1`
and `i + k`. -/
def shiftLeftStep (a : BaseUint WIDTH) (k : Nat) (shift : UInt32) (r : BaseUint WIDTH) (i : Nat) :
    BaseUint WIDTH :=
  let r := if i + k + 1 < WIDTH ∧ shift ≠ 0 then r.orAt (i + k + 1) (a.pn.getD i 0 >>> (32 - shift)) else r
  if i + k < WIDTH then r.orAt (i + k) (a.pn.getD i 0 <<< shift) else r

/-- `operator<<=(unsigned int shift)`. -/
def shiftLeft (a : BaseUint WIDTH) (shift : UInt32) : BaseUint WIDTH :=
  (List.range WIDTH).foldl (shiftLeftStep a (shift / 32).toNat (shift % 32)) zero

/-- Round `i` of the loop of `operator>>=`: limb `i` of the old value, split
across limbs `i - k - 1` and `i - k` where those are not negative. -/
def shiftRightStep (a : BaseUint WIDTH) (k : Nat) (shift : UInt32) (r : BaseUint WIDTH) (i : Nat) :
    BaseUint WIDTH :=
  let r := if k + 1 ≤ i ∧ shift ≠ 0 then r.orAt (i - k - 1) (a.pn.getD i 0 <<< (32 - shift)) else r
  if k ≤ i then r.orAt (i - k) (a.pn.getD i 0 >>> shift) else r

/-- `operator>>=(unsigned int shift)`. -/
def shiftRight (a : BaseUint WIDTH) (shift : UInt32) : BaseUint WIDTH :=
  (List.range WIDTH).foldl (shiftRightStep a (shift / 32).toNat (shift % 32)) zero

/-- The loop of `CompareTo` over the limbs from the top. -/
def compareLoop : List UInt32 → List UInt32 → Int
  | p :: ps, q :: qs => if p < q then -1 else if p > q then 1 else compareLoop ps qs
  | _, _ => 0

/-- `CompareTo`: `-1`, `0` or `1`; `operator<` and the other comparisons test
its sign. -/
def compareTo (a b : BaseUint WIDTH) : Int := compareLoop a.pn.reverse b.pn.reverse

/-- The inner loop of `bits` over the limb `pn[pos]`, from bit `31` down to `1`. -/
def bitsInLimb (p : UInt32) (pos : Nat) : Nat → Nat
  | 0 => 32 * pos + 1
  | b + 1 => if p &&& 1 <<< (b + 1).toUInt32 ≠ 0 then 32 * pos + (b + 1) + 1 else bitsInLimb p pos b

/-- The outer loop of `bits`: the limbs from the top, `pos` counting down. -/
def bitsLoop : List UInt32 → Nat → Nat
  | [], _ => 0
  | p :: ps, pos => if p ≠ 0 then bitsInLimb p pos 31 else bitsLoop ps (pos - 1)

/-- `bits`: the position of the highest set bit plus one, or zero. -/
def bits (a : BaseUint WIDTH) : Nat := bitsLoop a.pn.reverse (WIDTH - 1)

/-- `pn[shift / 32] |= (1 << (shift & 31))`: the `int` shift `1 << 31` is taken
as the bit it sets. -/
def setBit (q : BaseUint WIDTH) (shift : Nat) : BaseUint WIDTH :=
  q.orAt (shift / 32) (1 <<< (shift % 32).toUInt32)

/-- One round of the loop of `operator/=` at `shift`: subtract the aligned
divisor where it fits and set the quotient bit. -/
def divStep (num div q : BaseUint WIDTH) (shift : Nat) : BaseUint WIDTH × BaseUint WIDTH :=
  if compareTo num div ≥ 0 then (sub num div, setBit q shift) else (num, q)

/-- The loop of `operator/=`, from `shift` down to zero, shifting the divisor
back by one each round. -/
def divLoop (num div q : BaseUint WIDTH) : Nat → BaseUint WIDTH
  | 0 => (divStep num div q 0).2
  | s + 1 => divLoop (divStep num div q (s + 1)).1 (shiftRight div 1) (divStep num div q (s + 1)).2 s

/-- `operator/=`: `uint_error("Division by zero")` for a zero divisor, zero
when the divisor is longer than the dividend, else long division with the
divisor first aligned to the dividend's top bit. -/
def divide (a b : BaseUint WIDTH) : Except String (BaseUint WIDTH) :=
  let numBits := bits a
  let divBits := bits b
  if divBits = 0 then .error "Division by zero"
  else if divBits > numBits then .ok zero
  else
    let shift := numBits - divBits
    .ok (divLoop a (shiftLeft b shift.toUInt32) zero shift)

/-! ## The number the limbs hold -/

/-- The number held by limbs, least significant first. -/
def value (l : List UInt32) : Nat := Nat.ofDigits (2 ^ 32) (l.map UInt32.toNat)

theorem toNat_eq_value (a : BaseUint WIDTH) : a.toNat = value a.pn := rfl

@[simp] theorem value_nil : value [] = 0 := rfl

@[simp] theorem value_cons (p : UInt32) (ps : List UInt32) : value (p :: ps) = 2 ^ 32 * value ps + p.toNat := by
  rw [value, List.map_cons, ofDigits_cons_two_pow]
  rfl

theorem value_append (l l' : List UInt32) : value (l ++ l') = value l + 2 ^ (32 * l.length) * value l' := by
  rw [value, List.map_append, Nat.ofDigits_append, List.length_map, ← Nat.pow_mul]
  rfl

theorem fits_value (l : List UInt32) : Fits 32 (l.map UInt32.toNat) := by
  intro d hd
  obtain ⟨x, -, rfl⟩ := List.mem_map.mp hd
  exact x.toNat_lt

theorem value_lt (l : List UInt32) : value l < 2 ^ (32 * l.length) := by
  have h := ofDigits_lt (fits_value l)
  rwa [List.length_map] at h

theorem toNat_lt (a : BaseUint WIDTH) : a.toNat < 2 ^ (32 * WIDTH) := by
  have h := value_lt a.pn
  rwa [a.length_pn] at h

theorem toNat_zero : (zero : BaseUint WIDTH).toNat = 0 := by
  rw [toNat_eq_value, zero, value, List.map_replicate]
  exact Nat.ofDigits_replicate_zero

/-- The low half of a 64-bit sum, `n & 0xffffffff` stored in a limb. -/
theorem toNat_low (n : UInt64) : (n &&& 0xffffffff).toUInt32.toNat = n.toNat % 2 ^ 32 := by
  rw [UInt64.toNat_toUInt32, UInt64.toNat_and, show (0xffffffff : UInt64).toNat = 2 ^ 32 - 1 from rfl,
    Nat.and_two_pow_sub_one_eq_mod, Nat.mod_mod]

/-- The high half, `n >> 32`, carried. -/
theorem toNat_high (n : UInt64) : (n >>> 32).toNat = n.toNat / 2 ^ 32 := by
  rw [UInt64.toNat_shiftRight, show (32 : UInt64).toNat % 64 = 32 from rfl, Nat.shiftRight_eq_div_pow]

theorem two_pow_mul_succ (n : Nat) : 2 ^ (32 * (n + 1)) = 2 ^ 32 * 2 ^ (32 * n) := by
  rw [Nat.mul_succ, Nat.pow_add, Nat.mul_comm]

/-- One limb of a carry chain: the sum `x` entering a limb leaves its low half
there and carries the high half into the limbs above. -/
theorem carry_step (x R n : Nat) :
    (2 ^ 32 * R + x) % 2 ^ (32 * (n + 1)) = 2 ^ 32 * ((R + x / 2 ^ 32) % 2 ^ (32 * n)) + x % 2 ^ 32 := by
  rw [Nat.add_comm (2 ^ 32 * R) x, mod_two_pow_mul_succ, Nat.add_mul_mod_self_left,
    Nat.add_mul_div_left _ _ (Nat.two_pow_pos 32), Nat.add_comm (x / 2 ^ 32) R, Nat.add_comm]

/-- A limb that carries nothing. -/
theorem mod_cons_limb (R n : Nat) {d : Nat} (hd : d < 2 ^ 32) :
    (2 ^ 32 * R + d) % 2 ^ (32 * (n + 1)) = 2 ^ 32 * (R % 2 ^ (32 * n)) + d := by
  rw [carry_step, Nat.div_eq_of_lt hd, Nat.add_zero, Nat.mod_eq_of_lt hd]

/-! ## Complement, increment and decrement -/

theorem value_map_complement : ∀ l : List UInt32, value (l.map (~~~·)) + value l = 2 ^ (32 * l.length) - 1
  | [] => rfl
  | p :: ps => by
    have ih := value_map_complement ps
    have hpos := Nat.two_pow_pos (32 * ps.length)
    have hp := p.toNat_lt
    rw [List.map_cons, value_cons, value_cons, UInt32.toNat_not, List.length_cons, two_pow_mul_succ]
    simp only [UInt32.size]
    have hrest : 2 ^ 32 * value (ps.map (~~~·)) + 2 ^ 32 * value ps = 2 ^ 32 * (2 ^ (32 * ps.length) - 1) := by
      rw [← Nat.mul_add, ih]
    rw [Nat.mul_sub, Nat.mul_one] at hrest
    omega

theorem toNat_complement (a : BaseUint WIDTH) : (complement a).toNat = 2 ^ (32 * WIDTH) - 1 - a.toNat := by
  have h := value_map_complement a.pn
  rw [a.length_pn] at h
  rw [toNat_eq_value, toNat_eq_value]
  show value (a.pn.map (~~~·)) = _
  omega

theorem value_incLoop : ∀ l : List UInt32, value (incLoop l) = (value l + 1) % 2 ^ (32 * l.length)
  | [] => rfl
  | p :: ps => by
    have hp := p.toNat_lt
    have hrest := value_lt ps
    unfold incLoop
    split
    · next hwrap =>
      have hp' : p.toNat = 2 ^ 32 - 1 := by
        have h := congrArg UInt32.toNat hwrap
        rw [UInt32.toNat_add] at h
        simp at h
        omega
      rw [value_cons, value_cons, value_incLoop ps, hwrap, List.length_cons,
        show 2 ^ 32 * value ps + p.toNat + 1 = 2 ^ 32 * (value ps + 1) + 0 by omega,
        mod_cons_limb _ _ (Nat.two_pow_pos 32)]
      rfl
    · next hwrap =>
      have hp' : p.toNat + 1 < 2 ^ 32 := by
        by_contra hge
        exact hwrap (UInt32.toNat_inj.mp (by rw [UInt32.toNat_add]; simp; omega))
      have hadd : (p + 1).toNat = p.toNat + 1 := by rw [UInt32.toNat_add]; simp; omega
      rw [value_cons, value_cons, hadd, List.length_cons, Nat.add_assoc, mod_cons_limb _ _ hp',
        Nat.mod_eq_of_lt hrest]

theorem toNat_inc (a : BaseUint WIDTH) : (inc a).toNat = (a.toNat + 1) % 2 ^ (32 * WIDTH) := by
  rw [toNat_eq_value, inc, value_incLoop, ← toNat_eq_value, a.length_pn]

theorem value_decLoop : ∀ l : List UInt32,
    value (decLoop l) = (value l + 2 ^ (32 * l.length) - 1) % 2 ^ (32 * l.length)
  | [] => rfl
  | p :: ps => by
    have hp := p.toNat_lt
    have hrest := value_lt ps
    have hpos := Nat.two_pow_pos (32 * ps.length)
    unfold decLoop
    split
    · next hwrap =>
      have hp0 : p.toNat = 0 := by
        have h := congrArg UInt32.toNat hwrap
        rw [UInt32.toNat_sub] at h
        simp at h
        omega
      have hsub : (p - 1).toNat = 2 ^ 32 - 1 := by rw [hwrap]; rfl
      rw [value_cons, value_cons, value_decLoop ps, hsub, hp0, List.length_cons,
        show 2 ^ 32 * value ps + 0 + 2 ^ (32 * (ps.length + 1)) - 1 =
          2 ^ 32 * (value ps + 2 ^ (32 * ps.length) - 1) + (2 ^ 32 - 1) by rw [two_pow_mul_succ]; omega,
        mod_cons_limb _ _ (by omega)]
    · next hwrap =>
      have hp0 : p.toNat ≠ 0 := by
        intro h0
        exact hwrap (UInt32.toNat_inj.mp (by rw [UInt32.toNat_sub, h0]; rfl))
      have hsub : (p - 1).toNat = p.toNat - 1 := by rw [UInt32.toNat_sub]; simp; omega
      rw [value_cons, value_cons, hsub, List.length_cons,
        show 2 ^ 32 * value ps + p.toNat + 2 ^ (32 * (ps.length + 1)) - 1 =
          2 ^ 32 * value ps + (p.toNat - 1) + 2 ^ (32 * (ps.length + 1)) * 1 by omega,
        Nat.add_mul_mod_self_left, mod_cons_limb _ _ (by omega), Nat.mod_eq_of_lt hrest]

theorem toNat_dec (a : BaseUint WIDTH) :
    (dec a).toNat = (a.toNat + 2 ^ (32 * WIDTH) - 1) % 2 ^ (32 * WIDTH) := by
  rw [toNat_eq_value, dec, value_decLoop, ← toNat_eq_value, a.length_pn]

theorem toNat_neg (a : BaseUint WIDTH) : (neg a).toNat = (2 ^ (32 * WIDTH) - a.toNat) % 2 ^ (32 * WIDTH) := by
  have ha := toNat_lt a
  rw [neg, toNat_inc, toNat_complement]
  congr 1
  omega

/-! ## The carry loops -/

theorem value_addLoop : ∀ (ps qs : List UInt32) (carry : UInt64), ps.length = qs.length →
    carry.toNat < 2 ^ 32 →
    value (addLoop ps qs carry) = (value ps + value qs + carry.toNat) % 2 ^ (32 * ps.length)
  | [], [], _, _, _ => by simp [addLoop, Nat.mod_one]
  | p :: ps, q :: qs, carry, hlen, hc => by
    have hp := p.toNat_lt
    have hq := q.toNat_lt
    have hn : (carry + p.toUInt64 + q.toUInt64).toNat = carry.toNat + p.toNat + q.toNat := by
      rw [UInt64.toNat_add, UInt64.toNat_add, UInt32.toNat_toUInt64, UInt32.toNat_toUInt64,
        Nat.mod_eq_of_lt (by omega), Nat.mod_eq_of_lt (by omega)]
    have hc' : ((carry + p.toUInt64 + q.toUInt64) >>> 32).toNat < 2 ^ 32 := by
      rw [toNat_high, hn]
      omega
    simp only [addLoop]
    rw [value_cons, value_addLoop ps qs _ (Nat.succ.inj hlen) hc', toNat_low, toNat_high, hn,
      ← carry_step, value_cons, value_cons, List.length_cons]
    congr 1
    ring

theorem toNat_add (a b : BaseUint WIDTH) : (add a b).toNat = (a.toNat + b.toNat) % 2 ^ (32 * WIDTH) := by
  rw [toNat_eq_value, add, value_addLoop _ _ _ (by rw [a.length_pn, b.length_pn]) (by decide),
    a.length_pn]
  rfl

theorem toNat_sub (a b : BaseUint WIDTH) :
    (sub a b).toNat = (a.toNat + (2 ^ (32 * WIDTH) - b.toNat)) % 2 ^ (32 * WIDTH) := by
  rw [sub, toNat_add, toNat_neg, Nat.add_mod_mod]

theorem value_mul32Loop (b32 : UInt32) : ∀ (ps : List UInt32) (carry : UInt64), carry.toNat < 2 ^ 32 →
    value (mul32Loop b32 ps carry) = (b32.toNat * value ps + carry.toNat) % 2 ^ (32 * ps.length)
  | [], _, _ => by simp [mul32Loop, Nat.mod_one]
  | p :: ps, carry, hc => by
    have hp := p.toNat_lt
    have hb := b32.toNat_lt
    have hprod : b32.toNat * p.toNat ≤ (2 ^ 32 - 1) * (2 ^ 32 - 1) := Nat.mul_le_mul (by omega) (by omega)
    have hn : (carry + b32.toUInt64 * p.toUInt64).toNat = carry.toNat + b32.toNat * p.toNat := by
      rw [UInt64.toNat_add, UInt64.toNat_mul, UInt32.toNat_toUInt64, UInt32.toNat_toUInt64,
        Nat.mod_eq_of_lt (by omega), Nat.mod_eq_of_lt (by omega)]
    have hc' : ((carry + b32.toUInt64 * p.toUInt64) >>> 32).toNat < 2 ^ 32 := by
      rw [toNat_high, hn]
      exact Nat.div_lt_of_lt_mul (by omega)
    simp only [mul32Loop]
    rw [value_cons, value_mul32Loop b32 ps _ hc', toNat_low, toNat_high, hn, ← carry_step, value_cons,
      List.length_cons]
    congr 1
    ring

theorem toNat_mul32 (a : BaseUint WIDTH) (b32 : UInt32) :
    (mul32 a b32).toNat = a.toNat * b32.toNat % 2 ^ (32 * WIDTH) := by
  rw [toNat_eq_value, mul32, value_mul32Loop _ _ _ (by decide), a.length_pn, Nat.mul_comm]
  rfl

theorem value_mulRow (x : UInt32) : ∀ (ps qs : List UInt32) (carry : UInt64), ps.length ≤ qs.length →
    carry.toNat < 2 ^ 32 →
    value (mulRow x ps qs carry) =
      (value ps + x.toNat * value (qs.take ps.length) + carry.toNat) % 2 ^ (32 * ps.length)
  | [], _, _, _, _ => by simp [mulRow, Nat.mod_one]
  | p :: ps, q :: qs, carry, hlen, hc => by
    have hp := p.toNat_lt
    have hq := q.toNat_lt
    have hx := x.toNat_lt
    have hprod : x.toNat * q.toNat ≤ (2 ^ 32 - 1) * (2 ^ 32 - 1) := Nat.mul_le_mul (by omega) (by omega)
    have hn : (carry + p.toUInt64 + x.toUInt64 * q.toUInt64).toNat = carry.toNat + p.toNat + x.toNat * q.toNat := by
      rw [UInt64.toNat_add, UInt64.toNat_add, UInt64.toNat_mul, UInt32.toNat_toUInt64, UInt32.toNat_toUInt64,
        UInt32.toNat_toUInt64, Nat.mod_eq_of_lt (by omega), Nat.mod_eq_of_lt (by omega),
        Nat.mod_eq_of_lt (by omega)]
    have hc' : ((carry + p.toUInt64 + x.toUInt64 * q.toUInt64) >>> 32).toNat < 2 ^ 32 := by
      rw [toNat_high, hn]
      exact Nat.div_lt_of_lt_mul (by omega)
    simp only [mulRow]
    rw [value_cons, value_mulRow x ps qs _ (Nat.le_of_succ_le_succ hlen) hc', toNat_low, toNat_high, hn,
      ← carry_step, value_cons, List.length_cons, List.take_succ_cons, value_cons]
    congr 1
    ring

/-! ## The product -/

theorem value_take_succ (l : List UInt32) {j : Nat} (hj : j < l.length) :
    value (l.take (j + 1)) = value (l.take j) + 2 ^ (32 * j) * (l.getD j 0).toNat := by
  rw [List.take_add_one, List.getElem?_eq_getElem hj, Option.toList_some, value_append,
    List.length_take_of_le hj.le, List.getD_eq_getElem _ _ hj, value_cons, value_nil]
  ring

theorem value_take_append_drop (l : List UInt32) {j : Nat} (hj : j ≤ l.length) :
    value l = value (l.take j) + 2 ^ (32 * j) * value (l.drop j) := by
  conv_lhs => rw [← List.take_append_drop j l]
  rw [value_append, List.length_take_of_le hj]

/-- Row `j` adds `a.pn[j] * b` at limb `j`, modulo the width. -/
theorem toNat_mulStep (a b r : BaseUint WIDTH) {j : Nat} (hj : j < WIDTH)
    (hr : r.toNat = value (a.pn.take j) * b.toNat % 2 ^ (32 * WIDTH)) :
    (mulStep a b r j).toNat = value (a.pn.take (j + 1)) * b.toNat % 2 ^ (32 * WIDTH) := by
  set x := a.pn.getD j 0 with hx
  have hlenT : (r.pn.take j).length = j := by rw [List.length_take, r.length_pn]; omega
  have hlenD : (r.pn.drop j).length = WIDTH - j := by rw [List.length_drop, r.length_pn]
  have hpow : 2 ^ (32 * WIDTH) = 2 ^ (32 * j) * 2 ^ (32 * (WIDTH - j)) := by
    rw [← Nat.pow_add]
    congr 1
    omega
  have hT : value (r.pn.take j) < 2 ^ (32 * j) := by
    have h := value_lt (r.pn.take j)
    rwa [hlenT] at h
  have hsplit := value_take_append_drop r.pn (show j ≤ r.pn.length by rw [r.length_pn]; omega)
  have hb := value_take_append_drop b.pn (show WIDTH - j ≤ b.pn.length by rw [b.length_pn]; omega)
  have hrow := value_mulRow x (r.pn.drop j) b.pn 0 (by rw [hlenD, b.length_pn]; omega) (by decide)
  rw [hlenD] at hrow
  have ha := value_take_succ a.pn (show j < a.pn.length by rw [a.length_pn]; exact hj)
  rw [← hx] at ha
  have hcut : 2 ^ (32 * j) * x.toNat * value b.pn =
      2 ^ (32 * j) * x.toNat * value (b.pn.take (WIDTH - j)) +
        2 ^ (32 * WIDTH) * (x.toNat * value (b.pn.drop (WIDTH - j))) := by
    rw [hb, hpow]
    ring
  calc (mulStep a b r j).toNat
      = value (r.pn.take j) + 2 ^ (32 * j) *
          ((value (r.pn.drop j) + x.toNat * value (b.pn.take (WIDTH - j)) + UInt64.toNat 0) %
            2 ^ (32 * (WIDTH - j))) := by
        rw [toNat_eq_value, mulStep, value_append, hlenT, hrow]
    _ = (value (r.pn.take j) + 2 ^ (32 * j) * (value (r.pn.drop j) +
          x.toNat * value (b.pn.take (WIDTH - j)))) % 2 ^ (32 * WIDTH) := by
        rw [hpow, add_mul_mod_mul hT, UInt64.toNat_zero, Nat.add_zero]
    _ = (value r.pn + 2 ^ (32 * j) * x.toNat * value (b.pn.take (WIDTH - j))) % 2 ^ (32 * WIDTH) := by
        rw [hsplit]
        ring_nf
    _ = (value (a.pn.take j) * b.toNat + 2 ^ (32 * j) * x.toNat * value (b.pn.take (WIDTH - j))) %
          2 ^ (32 * WIDTH) := by
        rw [← toNat_eq_value, hr, Nat.mod_add_mod]
    _ = (value (a.pn.take j) * b.toNat + 2 ^ (32 * j) * x.toNat * b.toNat) % 2 ^ (32 * WIDTH) := by
        rw [toNat_eq_value b, hcut, ← Nat.add_assoc, Nat.add_mul_mod_self_left]
    _ = value (a.pn.take (j + 1)) * b.toNat % 2 ^ (32 * WIDTH) := by
        rw [ha]
        ring_nf

theorem toNat_mul (a b : BaseUint WIDTH) : (mul a b).toNat = a.toNat * b.toNat % 2 ^ (32 * WIDTH) := by
  have h := foldl_range_invariant (mulStep a b)
    (fun j r => r.toNat = value (a.pn.take j) * b.toNat % 2 ^ (32 * WIDTH))
    (by rw [toNat_zero, List.take_zero, value_nil, Nat.zero_mul, Nat.zero_mod])
    (fun j r hj hr => toNat_mulStep a b r hj hr)
  rw [mul, h, List.take_of_length_le (by rw [a.length_pn]), ← toNat_eq_value]


theorem testBit_value (l : List UInt32) (j : Nat) {t : Nat} (ht : t < 32) :
    (value l).testBit (32 * j + t) = (l.getD j 0).toNat.testBit t := by
  rw [value, testBit_ofDigits (fits_value l) j ht, ← UInt32.toNat_zero, List.getD_map]

theorem value_eq_of_testBit {l : List UInt32} {V : Nat}
    (h : ∀ j < l.length, ∀ t < 32, (l.getD j 0).toNat.testBit t = V.testBit (32 * j + t)) :
    value l = V % 2 ^ (32 * l.length) := by
  have h' := ofDigits_eq_mod_of_testBit (w := 32) (by decide) (fits_value l) (V := V) (by
    intro j hj t ht
    rw [← UInt32.toNat_zero, List.getD_map]
    exact h j (by simpa using hj) t ht)
  rwa [List.length_map] at h'

/-- A `base_uint` is pinned down by the bits its limbs are to hold. -/
theorem toNat_eq_of_testBit (r : BaseUint WIDTH) {V : Nat}
    (h : ∀ j < WIDTH, ∀ t < 32, (r.pn.getD j 0).toNat.testBit t = V.testBit (32 * j + t)) :
    r.toNat = V % 2 ^ (32 * WIDTH) := by
  have hv := value_eq_of_testBit (l := r.pn) (V := V) (by rw [r.length_pn]; exact h)
  rwa [r.length_pn] at hv

theorem testBit_limb_ge (x : UInt32) {t : Nat} (ht : 32 ≤ t) : x.toNat.testBit t = false :=
  Nat.testBit_lt_two_pow (Nat.lt_of_lt_of_le x.toNat_lt (Nat.pow_le_pow_right (by decide) ht))

theorem testBit_shiftLeft_limb (x s : UInt32) (hs : s.toNat < 32) (t : Nat) :
    (x <<< s).toNat.testBit t = (decide (t < 32) && decide (s.toNat ≤ t) && x.toNat.testBit (t - s.toNat)) := by
  rw [UInt32.toNat_shiftLeft, Nat.mod_eq_of_lt hs, Nat.testBit_mod_two_pow, Nat.testBit_shiftLeft, Bool.and_assoc]

theorem testBit_shiftRight_limb (x s : UInt32) (hs : s.toNat < 32) (t : Nat) :
    (x >>> s).toNat.testBit t = x.toNat.testBit (s.toNat + t) := by
  rw [UInt32.toNat_shiftRight, Nat.mod_eq_of_lt hs, Nat.testBit_shiftRight]

theorem toNat_pos_of_ne_zero {s : UInt32} (h0 : s ≠ 0) : 0 < s.toNat := by
  rw [Nat.pos_iff_ne_zero]
  intro h
  exact h0 (UInt32.toNat_inj.mp (by rw [h]; rfl))

theorem toNat_thirtyTwo_sub {s : UInt32} (h0 : s ≠ 0) (hs : s.toNat < 32) : (32 - s).toNat = 32 - s.toNat := by
  have hpos := toNat_pos_of_ne_zero h0
  rw [UInt32.toNat_sub_of_le _ _ (UInt32.le_iff_toNat_le.mpr (by simp; omega))]
  rfl

/-- The part of a limb that crosses into the limb below, as the shifts compute
it with a shift by `32 - shift`. -/
theorem testBit_shiftRight_thirtyTwo_sub (x s : UInt32) (h0 : s ≠ 0) (hs : s.toNat < 32) (t : Nat) :
    (x >>> (32 - s)).toNat.testBit t = x.toNat.testBit (32 - s.toNat + t) := by
  have hpos := toNat_pos_of_ne_zero h0
  rw [testBit_shiftRight_limb _ _ (by rw [toNat_thirtyTwo_sub h0 hs]; omega), toNat_thirtyTwo_sub h0 hs]

theorem testBit_shiftLeft_thirtyTwo_sub (x s : UInt32) (h0 : s ≠ 0) (hs : s.toNat < 32) {t : Nat} (ht : t < 32) :
    (x <<< (32 - s)).toNat.testBit t = (decide (32 - s.toNat ≤ t) && x.toNat.testBit (t - (32 - s.toNat))) := by
  have hpos := toNat_pos_of_ne_zero h0
  rw [testBit_shiftLeft_limb _ _ (by rw [toNat_thirtyTwo_sub h0 hs]; omega), toNat_thirtyTwo_sub h0 hs,
    decide_eq_true ht, Bool.true_and]

theorem toNat_mod_thirtyTwo (shift : UInt32) : (shift % 32).toNat = shift.toNat % 32 := by
  rw [UInt32.toNat_mod]
  rfl

theorem getD_orAt (r : BaseUint WIDTH) (idx : Nat) (v : UInt32) {m : Nat} (hm : m < WIDTH) :
    (r.orAt idx v).pn.getD m 0 = r.pn.getD m 0 ||| if idx = m then v else 0 := by
  have hm' : m < r.pn.length := by rw [r.length_pn]; exact hm
  simp only [orAt, List.getD_eq_getElem?_getD, List.getElem?_modify, List.getElem?_eq_getElem hm']
  split <;> simp

theorem getD_ite_orAt (r : BaseUint WIDTH) (c : Prop) [Decidable c] (idx : Nat) (v : UInt32) {m : Nat}
    (hm : m < WIDTH) :
    (if c then r.orAt idx v else r).pn.getD m 0 = r.pn.getD m 0 ||| if c ∧ idx = m then v else 0 := by
  by_cases hc : c
  · rw [if_pos hc, getD_orAt r idx v hm]
    simp [hc]
  · rw [if_neg hc]
    simp [hc]

theorem ite_guard (c d e : Prop) [Decidable c] [Decidable d] [Decidable e] (x : UInt32) :
    (if (c ∧ d) ∧ e then x else 0) = if c ∧ e then (if d then x else 0) else 0 := by
  by_cases hc : c <;> by_cases hd : d <;> by_cases he : e <;> simp [hc, hd, he]

theorem getD_shiftLeft_rounds (a : BaseUint WIDTH) (k : Nat) (s : UInt32) (n : Nat) :
    ∀ m < WIDTH, ((List.range n).foldl (shiftLeftStep a k s) zero).pn.getD m 0 =
      (if k ≤ m ∧ m < n + k then a.pn.getD (m - k) 0 <<< s else 0) |||
        (if k + 1 ≤ m ∧ m < n + k + 1 then (if s ≠ 0 then a.pn.getD (m - k - 1) 0 >>> (32 - s) else 0) else 0) := by
  refine Limbs.foldl_range_invariant (shiftLeftStep a k s)
    (fun n r => ∀ m < WIDTH, r.pn.getD m 0 =
      (if k ≤ m ∧ m < n + k then a.pn.getD (m - k) 0 <<< s else 0) |||
        (if k + 1 ≤ m ∧ m < n + k + 1 then (if s ≠ 0 then a.pn.getD (m - k - 1) 0 >>> (32 - s) else 0) else 0)) ?_ ?_
  · intro m hm
    rw [if_neg (by omega), if_neg (by omega)]
    simp [zero]
  · intro j r hj ih m hm
    simp only [shiftLeftStep]
    rw [getD_ite_orAt _ _ _ _ hm, getD_ite_orAt _ _ _ _ hm, ih m hm, ite_guard]
    split_ifs <;> (try omega) <;>
      first
        | rw [show m - k = j by omega]
        | rw [show m - k - 1 = j by omega]
        | skip
    all_goals simp only [UInt32.zero_or, UInt32.or_zero, UInt32.or_comm]

theorem testBit_toNat (a : BaseUint WIDTH) (j : Nat) {t : Nat} (ht : t < 32) :
    a.toNat.testBit (32 * j + t) = (a.pn.getD j 0).toNat.testBit t := by
  rw [toNat_eq_value, testBit_value _ _ ht]

theorem getD_pn_of_ge (a : BaseUint WIDTH) {j : Nat} (hj : WIDTH ≤ j) : a.pn.getD j 0 = 0 :=
  List.getD_eq_default _ _ (by rw [a.length_pn]; exact hj)

/-- What the loop of `operator<<=` leaves in limb `m`: the low part of limb
`m - k` and the high part of limb `m - k - 1`. -/
theorem getD_shiftLeft (a : BaseUint WIDTH) (shift : UInt32) {m : Nat} (hm : m < WIDTH) :
    (shiftLeft a shift).pn.getD m 0 =
      (if (shift / 32).toNat ≤ m then a.pn.getD (m - (shift / 32).toNat) 0 <<< (shift % 32) else 0) |||
        (if (shift / 32).toNat + 1 ≤ m ∧ shift % 32 ≠ 0 then
          a.pn.getD (m - (shift / 32).toNat - 1) 0 >>> (32 - shift % 32) else 0) := by
  rw [shiftLeft, getD_shiftLeft_rounds a _ _ WIDTH m hm]
  congr 1
  · exact if_congr ⟨fun h => h.1, fun h => ⟨h, by omega⟩⟩ rfl rfl
  · by_cases h : (shift / 32).toNat + 1 ≤ m
    · rw [if_pos ⟨h, by omega⟩]
      by_cases hs : shift % 32 ≠ 0
      · rw [if_pos hs, if_pos ⟨h, hs⟩]
      · rw [if_neg hs, if_neg (fun h' => hs h'.2)]
    · rw [if_neg (fun h' => h h'.1), if_neg (fun h' => h h'.1)]

theorem toNat_shiftLeft (a : BaseUint WIDTH) (shift : UInt32) :
    (shiftLeft a shift).toNat = a.toNat * 2 ^ shift.toNat % 2 ^ (32 * WIDTH) := by
  apply toNat_eq_of_testBit
  intro j hj t ht
  rw [getD_shiftLeft a shift hj]
  obtain ⟨k, hk⟩ : ∃ k, (shift / 32).toNat = k := ⟨_, rfl⟩
  obtain ⟨s, hs⟩ : ∃ s, shift % 32 = s := ⟨_, rfl⟩
  have hshift : shift.toNat = 32 * k + s.toNat := by
    rw [← hk, ← hs, UInt32.toNat_div, toNat_mod_thirtyTwo]
    exact (Nat.div_add_mod _ _).symm
  have hs32 : s.toNat < 32 := by rw [← hs, toNat_mod_thirtyTwo]; omega
  rw [hk, hs, UInt32.toNat_or, Nat.testBit_or, Nat.testBit_mul_two_pow, hshift]
  by_cases hst : s.toNat ≤ t
  · have hhigh : (if k + 1 ≤ j ∧ s ≠ 0 then a.pn.getD (j - k - 1) 0 >>> (32 - s) else 0).toNat.testBit t
        = false := by
      split_ifs with hH
      · rw [testBit_shiftRight_thirtyTwo_sub _ _ hH.2 hs32, testBit_limb_ge _ (by omega)]
      · simp
    rw [hhigh, Bool.or_false]
    by_cases hjk : k ≤ j
    · rw [if_pos hjk, testBit_shiftLeft_limb _ _ hs32, decide_eq_true ht, decide_eq_true hst,
        show 32 * j + t - (32 * k + s.toNat) = 32 * (j - k) + (t - s.toNat) by omega,
        testBit_toNat a _ (by omega), decide_eq_true (by omega)]
      simp
    · rw [if_neg hjk, decide_eq_false (by omega)]
      simp
  · have hs0 : s ≠ 0 := fun h0 => hst (by rw [h0]; exact Nat.zero_le t)
    have hlow : (if k ≤ j then a.pn.getD (j - k) 0 <<< s else 0).toNat.testBit t = false := by
      split_ifs
      · rw [testBit_shiftLeft_limb _ _ hs32, decide_eq_false hst]
        simp
      · simp
    rw [hlow, Bool.false_or]
    by_cases hjk : k + 1 ≤ j
    · rw [if_pos ⟨hjk, hs0⟩, testBit_shiftRight_thirtyTwo_sub _ _ hs0 hs32,
        show 32 * j + t - (32 * k + s.toNat) = 32 * (j - k - 1) + (32 - s.toNat + t) by omega,
        testBit_toNat a _ (by omega), decide_eq_true (by omega), Bool.true_and]
    · rw [if_neg (fun h => hjk h.1), decide_eq_false (by omega)]
      simp

theorem getD_shiftRight_rounds (a : BaseUint WIDTH) (k : Nat) (s : UInt32) (n : Nat) :
    ∀ m < WIDTH, ((List.range n).foldl (shiftRightStep a k s) zero).pn.getD m 0 =
      (if m + k < n then a.pn.getD (m + k) 0 >>> s else 0) |||
        (if m + k + 1 < n then (if s ≠ 0 then a.pn.getD (m + k + 1) 0 <<< (32 - s) else 0) else 0) := by
  refine Limbs.foldl_range_invariant (shiftRightStep a k s)
    (fun n r => ∀ m < WIDTH, r.pn.getD m 0 =
      (if m + k < n then a.pn.getD (m + k) 0 >>> s else 0) |||
        (if m + k + 1 < n then (if s ≠ 0 then a.pn.getD (m + k + 1) 0 <<< (32 - s) else 0) else 0)) ?_ ?_
  · intro m hm
    rw [if_neg (by omega), if_neg (by omega)]
    simp [zero]
  · intro j r hj ih m hm
    simp only [shiftRightStep]
    rw [getD_ite_orAt _ _ _ _ hm, getD_ite_orAt _ _ _ _ hm, ih m hm, ite_guard]
    split_ifs <;> (try omega) <;>
      first
        | rw [show m + k = j by omega]
        | rw [show m + k + 1 = j by omega]
        | skip
    all_goals simp only [UInt32.zero_or, UInt32.or_zero, UInt32.or_comm]

/-- What the loop of `operator>>=` leaves in limb `m`: the high part of limb
`m + k` and the low part of limb `m + k + 1`. -/
theorem getD_shiftRight (a : BaseUint WIDTH) (shift : UInt32) {m : Nat} (hm : m < WIDTH) :
    (shiftRight a shift).pn.getD m 0 =
      (a.pn.getD (m + (shift / 32).toNat) 0 >>> (shift % 32)) |||
        (if shift % 32 ≠ 0 then a.pn.getD (m + (shift / 32).toNat + 1) 0 <<< (32 - shift % 32) else 0) := by
  rw [shiftRight, getD_shiftRight_rounds a _ _ WIDTH m hm]
  congr 1
  · split_ifs with h
    · rfl
    · rw [getD_pn_of_ge a (by omega)]
      simp
  · split_ifs with h hs <;> first | rfl | rw [getD_pn_of_ge a (by omega)]; simp

theorem toNat_shiftRight (a : BaseUint WIDTH) (shift : UInt32) :
    (shiftRight a shift).toNat = a.toNat / 2 ^ shift.toNat := by
  have hlt : a.toNat / 2 ^ shift.toNat < 2 ^ (32 * WIDTH) :=
    Nat.lt_of_le_of_lt (Nat.div_le_self _ _) (toNat_lt a)
  rw [← Nat.mod_eq_of_lt hlt]
  apply toNat_eq_of_testBit
  intro j hj t ht
  rw [getD_shiftRight a shift hj]
  obtain ⟨k, hk⟩ : ∃ k, (shift / 32).toNat = k := ⟨_, rfl⟩
  obtain ⟨s, hs⟩ : ∃ s, shift % 32 = s := ⟨_, rfl⟩
  have hshift : shift.toNat = 32 * k + s.toNat := by
    rw [← hk, ← hs, UInt32.toNat_div, toNat_mod_thirtyTwo]
    exact (Nat.div_add_mod _ _).symm
  have hs32 : s.toNat < 32 := by rw [← hs, toNat_mod_thirtyTwo]; omega
  rw [hk, hs, UInt32.toNat_or, Nat.testBit_or, Nat.testBit_div_two_pow, hshift,
    testBit_shiftRight_limb _ _ hs32]
  by_cases hst : s.toNat + t < 32
  · have hhigh : (if s ≠ 0 then a.pn.getD (j + k + 1) 0 <<< (32 - s) else 0).toNat.testBit t = false := by
      split_ifs with hs0
      · rw [testBit_shiftLeft_thirtyTwo_sub _ _ hs0 hs32 ht, decide_eq_false (by omega)]
        simp
      · simp
    rw [hhigh, Bool.or_false, show 32 * j + t + (32 * k + s.toNat) = 32 * (j + k) + (s.toNat + t) by ring,
      testBit_toNat a _ hst]
  · have hs0 : s ≠ 0 := fun h0 => hst (by rw [h0, UInt32.toNat_zero]; omega)
    rw [testBit_limb_ge _ (by omega), Bool.false_or, if_pos hs0, testBit_shiftLeft_thirtyTwo_sub _ _ hs0 hs32 ht,
      decide_eq_true (by omega), Bool.true_and,
      show 32 * j + t + (32 * k + s.toNat) = 32 * (j + k + 1) + (t - (32 - s.toNat)) by omega,
      testBit_toNat a _ (by omega)]

/-! ### Comparison and bit length -/

/-- Limbs read from the top: the first one is the most significant. -/
theorem value_reverse_cons (x : UInt32) (xs : List UInt32) :
    value (x :: xs).reverse = value xs.reverse + 2 ^ (32 * xs.length) * x.toNat := by
  rw [List.reverse_cons, value_append, List.length_reverse, value_cons, value_nil, Nat.mul_zero, Nat.zero_add]

/-- The loop of `CompareTo` on limbs from the top compares the numbers they hold. -/
theorem compareLoop_eq : ∀ (xs ys : List UInt32), xs.length = ys.length →
    compareLoop xs ys =
      if value xs.reverse < value ys.reverse then -1 else if value ys.reverse < value xs.reverse then 1 else 0
  | [], [], _ => by simp [compareLoop]
  | x :: xs, y :: ys, h => by
    have hlen : xs.length = ys.length := Nat.succ.inj h
    have hx := value_lt xs.reverse
    have hy := value_lt ys.reverse
    rw [List.length_reverse] at hx hy
    rw [compareLoop, value_reverse_cons, value_reverse_cons, ← hlen]
    by_cases hxy : x < y
    · have hlt := add_mul_lt_add_mul (B := value ys.reverse) hx (UInt32.lt_iff_toNat_lt.mp hxy)
      rw [if_pos hxy, if_pos hlt]
    · by_cases hyx : y < x
      · rw [← hlen] at hy
        have hlt := add_mul_lt_add_mul (B := value xs.reverse) hy (UInt32.lt_iff_toNat_lt.mp hyx)
        rw [if_neg hxy, if_pos hyx, if_neg (by omega), if_pos hlt]
      · have hxy' : x = y := UInt32.le_antisymm (UInt32.not_lt.mp hyx) (UInt32.not_lt.mp hxy)
        subst hxy'
        rw [if_neg hxy, if_neg hyx, compareLoop_eq xs ys hlen]
        simp only [Nat.add_lt_add_iff_right]

/-- `CompareTo` is the comparison of the numbers. -/
theorem compareTo_eq (a b : BaseUint WIDTH) :
    compareTo a b = if a.toNat < b.toNat then -1 else if b.toNat < a.toNat then 1 else 0 := by
  rw [compareTo, compareLoop_eq _ _ (by rw [List.length_reverse, List.length_reverse, a.length_pn, b.length_pn]),
    List.reverse_reverse, List.reverse_reverse, toNat_eq_value, toNat_eq_value]

theorem compareTo_nonneg_iff (a b : BaseUint WIDTH) : 0 ≤ compareTo a b ↔ b.toNat ≤ a.toNat := by
  rw [compareTo_eq]
  split_ifs <;> omega

theorem toNat_toUInt32_of_lt {n : Nat} (hn : n < 2 ^ 32) : n.toUInt32.toNat = n := by
  rw [Nat.toUInt32, UInt32.toNat_ofNat', Nat.mod_eq_of_lt hn]

theorem and_one_shiftLeft_ne_zero_iff (p : UInt32) {n : Nat} (hn : n < 32) :
    p &&& 1 <<< n.toUInt32 ≠ 0 ↔ p.toNat.testBit n = true := by
  have hshift : (1 <<< n.toUInt32 : UInt32).toNat = 2 ^ n := by
    rw [UInt32.toNat_shiftLeft, toNat_toUInt32_of_lt (by omega), Nat.mod_eq_of_lt hn, UInt32.toNat_one,
      Nat.one_shiftLeft]
    exact Nat.mod_eq_of_lt (Nat.pow_lt_pow_right (by decide) hn)
  rw [ne_eq, ← UInt32.toNat_inj, UInt32.toNat_and, hshift, Nat.and_two_pow, UInt32.toNat_zero]
  cases p.toNat.testBit n <;> simp

/-- The inner loop of `bits`: the first set bit from the top of a nonzero limb. -/
theorem bitsInLimb_eq (p : UInt32) (pos : Nat) :
    ∀ b, b < 32 → p ≠ 0 → p.toNat < 2 ^ (b + 1) → bitsInLimb p pos b = 32 * pos + p.toNat.size
  | 0, _, hp, hlt => by
    have h1 : p.toNat = 1 := by
      have := toNat_pos_of_ne_zero hp
      omega
    rw [bitsInLimb, h1, Nat.size_one]
  | b + 1, hb, hp, hlt => by
    rw [bitsInLimb]
    by_cases hbit : p.toNat.testBit (b + 1) = true
    · rw [if_pos ((and_one_shiftLeft_ne_zero_iff p hb).mpr hbit)]
      have hsize : p.toNat.size = b + 2 :=
        le_antisymm (Nat.size_le.mpr hlt) (Nat.lt_size.mpr (Nat.ge_two_pow_of_testBit hbit))
      omega
    · rw [if_neg (fun h => hbit ((and_one_shiftLeft_ne_zero_iff p hb).mp h))]
      apply bitsInLimb_eq p pos b (by omega) hp
      apply Nat.lt_pow_two_of_testBit
      intro i hi
      rcases Nat.eq_or_lt_of_le hi with rfl | hi
      · simpa using hbit
      · exact Nat.testBit_lt_two_pow (Nat.lt_of_lt_of_le hlt (Nat.pow_le_pow_right (by decide) hi))

/-- The outer loop of `bits`: the top nonzero limb and its bit length. -/
theorem bitsLoop_eq : ∀ xs : List UInt32, bitsLoop xs (xs.length - 1) = (value xs.reverse).size
  | [] => by simp [bitsLoop]
  | x :: xs => by
    rw [bitsLoop, value_reverse_cons, List.length_cons, Nat.add_sub_cancel]
    by_cases hx : x ≠ 0
    · rw [if_pos hx, bitsInLimb_eq x _ 31 (by decide) hx x.toNat_lt,
        size_add_two_pow_mul (value_lt xs.reverse |>.trans_eq (by rw [List.length_reverse])) ?_]
      exact fun h => hx (UInt32.toNat_inj.mp (by rw [h]; rfl))
    · rw [if_neg hx, not_not.mp hx, UInt32.toNat_zero, Nat.mul_zero, Nat.add_zero]
      exact bitsLoop_eq xs

/-- `bits` is the bit length of the number. -/
theorem bits_eq (a : BaseUint WIDTH) : bits a = a.toNat.size := by
  have h := bitsLoop_eq a.pn.reverse
  rwa [List.length_reverse, a.length_pn, List.reverse_reverse, ← toNat_eq_value] at h

/-! ### Division -/

theorem toNat_orAt (r : BaseUint WIDTH) {idx : Nat} (hidx : idx < WIDTH) (v : UInt32) :
    (r.orAt idx v).toNat = r.toNat ||| v.toNat * 2 ^ (32 * idx) := by
  have hv : v.toNat * 2 ^ (32 * idx) < 2 ^ (32 * WIDTH) := by
    calc v.toNat * 2 ^ (32 * idx) < 2 ^ 32 * 2 ^ (32 * idx) :=
          Nat.mul_lt_mul_of_pos_right v.toNat_lt (Nat.two_pow_pos _)
      _ = 2 ^ (32 * (idx + 1)) := by rw [← Nat.pow_add]; ring_nf
      _ ≤ 2 ^ (32 * WIDTH) := Nat.pow_le_pow_right (by decide) (by omega)
  rw [← Nat.mod_eq_of_lt (Nat.or_lt_two_pow (toNat_lt r) hv)]
  apply toNat_eq_of_testBit
  intro j hj t ht
  rw [getD_orAt r idx v hj, UInt32.toNat_or, Nat.testBit_or, Nat.testBit_or, testBit_toNat r j ht,
    Nat.testBit_mul_two_pow]
  congr 1
  by_cases h : idx = j
  · subst h
    rw [if_pos rfl, decide_eq_true (by omega), Bool.true_and, show 32 * idx + t - 32 * idx = t by omega]
  · rw [if_neg h, UInt32.toNat_zero, Nat.zero_testBit]
    by_cases hlt : idx < j
    · rw [testBit_limb_ge _ (by omega), Bool.and_false]
    · rw [decide_eq_false (by omega), Bool.false_and]

/-- Setting a bit that is clear adds its power of two. -/
theorem toNat_setBit (q : BaseUint WIDTH) {shift : Nat} (hs : shift < 32 * WIDTH)
    (hq : q.toNat % 2 ^ (shift + 1) = 0) : (setBit q shift).toNat = q.toNat + 2 ^ shift := by
  have hbit : (1 <<< (shift % 32).toUInt32 : UInt32).toNat = 2 ^ (shift % 32) := by
    rw [UInt32.toNat_shiftLeft, toNat_toUInt32_of_lt (by omega), Nat.mod_mod, UInt32.toNat_one, Nat.one_shiftLeft]
    exact Nat.mod_eq_of_lt (Nat.pow_lt_pow_right (by decide) (Nat.mod_lt _ (by decide)))
  rw [setBit, toNat_orAt q (by omega), hbit, ← Nat.pow_add, show shift % 32 + 32 * (shift / 32) = shift by omega]
  obtain ⟨Q, hQ⟩ := Nat.dvd_of_mod_eq_zero hq
  rw [hQ, ← Nat.two_pow_add_eq_or_of_lt (Nat.pow_lt_pow_succ (by decide : 1 < 2))]

theorem toNat_sub_of_le (a b : BaseUint WIDTH) (h : b.toNat ≤ a.toNat) : (sub a b).toNat = a.toNat - b.toNat := by
  have ha := toNat_lt a
  rw [toNat_sub, show a.toNat + (2 ^ (32 * WIDTH) - b.toNat) = a.toNat - b.toNat + 2 ^ (32 * WIDTH) by omega,
    Nat.add_mod_right, Nat.mod_eq_of_lt (by omega)]

/-- The loop invariant of `operator/=` before the round at `shift`, dividing
`A` by `B`: the divisor is aligned at `shift`, what is left of the dividend
and the quotient bits found so far make up `A`, what is left is below twice the
aligned divisor, and no quotient bit at or below `shift` is set yet. -/
structure DivInvariant (A B shift : Nat) (num div q : BaseUint WIDTH) : Prop where
  div_eq : div.toNat = B * 2 ^ shift
  num_add : num.toNat + q.toNat * B = A
  num_lt : num.toNat < B * 2 ^ (shift + 1)
  low_clear : q.toNat % 2 ^ (shift + 1) = 0

/-- One round of long division: after it, what is left is below the aligned
divisor, and the quotient bits below `shift` are still clear. -/
theorem divStep_spec {A B shift : Nat} {num div q : BaseUint WIDTH} (h : DivInvariant A B shift num div q)
    (hs : shift < 32 * WIDTH) :
    (divStep num div q shift).1.toNat + (divStep num div q shift).2.toNat * B = A ∧
      (divStep num div q shift).1.toNat < B * 2 ^ shift ∧ (divStep num div q shift).2.toNat % 2 ^ shift = 0 := by
  have hlt := h.num_lt
  have hadd := h.num_add
  rw [Nat.pow_succ, ← Nat.mul_assoc] at hlt
  rw [divStep]
  by_cases hge : div.toNat ≤ num.toNat
  · rw [if_pos ((compareTo_nonneg_iff num div).mpr hge), toNat_sub_of_le _ _ hge, toNat_setBit q hs h.low_clear,
      h.div_eq]
    rw [h.div_eq] at hge
    refine ⟨?_, by omega, ?_⟩
    · rw [Nat.add_mul, Nat.mul_comm (2 ^ shift) B]
      omega
    · rw [Nat.add_mod_right]
      exact mod_two_pow_eq_zero_of_succ h.low_clear
  · rw [if_neg (fun h' => hge ((compareTo_nonneg_iff num div).mp h'))]
    dsimp only
    rw [h.div_eq] at hge
    exact ⟨hadd, by omega, mod_two_pow_eq_zero_of_succ h.low_clear⟩

/-- The loop of `operator/=` from an aligned start ends with the quotient. -/
theorem toNat_divLoop {A B : Nat} : ∀ (shift : Nat) (num div q : BaseUint WIDTH),
    DivInvariant A B shift num div q → shift < 32 * WIDTH → (divLoop num div q shift).toNat = A / B
  | 0, num, div, q, h, hs => by
    obtain ⟨hadd, hlt, -⟩ := divStep_spec h hs
    rw [Nat.pow_zero, Nat.mul_one] at hlt
    rw [divLoop]
    refine (Nat.div_eq_of_lt_le ?_ ?_).symm
    · omega
    · rw [Nat.succ_mul]
      omega
  | s + 1, num, div, q, h, hs => by
    obtain ⟨hadd, hlt, hclear⟩ := divStep_spec h hs
    rw [divLoop]
    refine toNat_divLoop s _ _ _ ⟨?_, hadd, hlt, hclear⟩ (by omega)
    rw [toNat_shiftRight, h.div_eq, UInt32.toNat_one, Nat.pow_succ, ← Nat.mul_assoc, Nat.pow_one,
      Nat.mul_div_cancel _ (by decide)]

/-- `operator/=`: it throws exactly for a zero divisor, and otherwise
computes the quotient rounded down. -/
theorem divide_toNat (a b : BaseUint WIDTH) (hw : 32 * WIDTH < 2 ^ 32) :
    toNat <$> divide a b = if b.toNat = 0 then .error "Division by zero" else .ok (a.toNat / b.toNat) := by
  simp only [divide]
  rw [bits_eq, bits_eq]
  by_cases hb : b.toNat = 0
  · rw [if_pos (by rw [hb, Nat.size_zero]), if_pos hb]
    rfl
  · have hsb : b.toNat.size ≠ 0 := fun h => hb (Nat.size_eq_zero.mp h)
    have hbtop : 2 ^ (b.toNat.size - 1) ≤ b.toNat := Nat.lt_size.mp (by omega)
    have hsa : a.toNat.size ≤ 32 * WIDTH := Nat.size_le.mpr (toNat_lt a)
    rw [if_neg hsb, if_neg hb]
    by_cases hgt : b.toNat.size > a.toNat.size
    · rw [if_pos hgt]
      show Except.ok zero.toNat = _
      rw [toNat_zero, Nat.div_eq_of_lt]
      calc a.toNat < 2 ^ a.toNat.size := Nat.lt_size_self _
        _ ≤ 2 ^ (b.toNat.size - 1) := Nat.pow_le_pow_right (by decide) (by omega)
        _ ≤ b.toNat := hbtop
    · rw [if_neg hgt]
      show Except.ok (divLoop _ _ _ _).toNat = _
      congr 1
      apply toNat_divLoop
      · have hshift : (a.toNat.size - b.toNat.size).toUInt32.toNat = a.toNat.size - b.toNat.size :=
          toNat_toUInt32_of_lt (by omega)
        have hb2 : b.toNat * 2 ^ (a.toNat.size - b.toNat.size) < 2 ^ a.toNat.size :=
          calc b.toNat * 2 ^ (a.toNat.size - b.toNat.size)
              < 2 ^ b.toNat.size * 2 ^ (a.toNat.size - b.toNat.size) :=
                Nat.mul_lt_mul_of_pos_right (Nat.lt_size_self _) (Nat.two_pow_pos _)
            _ = 2 ^ a.toNat.size := by rw [← Nat.pow_add]; congr 1; omega
        refine ⟨?_, ?_, ?_, ?_⟩
        · rw [toNat_shiftLeft, hshift, Nat.mod_eq_of_lt (Nat.lt_of_lt_of_le hb2 (Nat.pow_le_pow_right (by decide) hsa))]
        · rw [toNat_zero, Nat.zero_mul, Nat.add_zero]
        · calc a.toNat < 2 ^ a.toNat.size := Nat.lt_size_self _
            _ = 2 ^ (b.toNat.size - 1) * 2 ^ (a.toNat.size - b.toNat.size + 1) := by
              rw [← Nat.pow_add]; congr 1; omega
            _ ≤ b.toNat * 2 ^ (a.toNat.size - b.toNat.size + 1) := Nat.mul_le_mul_right _ hbtop
        · rw [toNat_zero, Nat.zero_mod]
      · omega


/-! ## Differences as integers -/

theorem toInt_sub (a b : BaseUint WIDTH) :
    ((sub a b).toNat : Int) = ((a.toNat : Int) - b.toNat) % (2 : Int) ^ (32 * WIDTH) := by
  rw [toNat_sub, natCast_add_sub_mod (Nat.le_of_lt (toNat_lt b))]
  push_cast
  rfl

theorem toInt_dec (a : BaseUint WIDTH) :
    ((dec a).toNat : Int) = ((a.toNat : Int) - 1) % (2 : Int) ^ (32 * WIDTH) := by
  rw [toNat_dec, Nat.add_sub_assoc (Nat.one_le_two_pow), natCast_add_sub_mod (Nat.one_le_two_pow)]
  push_cast
  rfl

end BaseUint

/-! ## `arith_uint256` -/

open BaseUint

theorem baseUint256_arith_mod (a b : BaseUint 8) (b32 shift : UInt32) :
    (add a b).toNat = (a.toNat + b.toNat) % 2 ^ 256 ∧
      ((sub a b).toNat : Int) = ((a.toNat : Int) - b.toNat) % 2 ^ 256 ∧
      (neg a).toNat = (2 ^ 256 - a.toNat) % 2 ^ 256 ∧
      (mul a b).toNat = a.toNat * b.toNat % 2 ^ 256 ∧
      (mul32 a b32).toNat = a.toNat * b32.toNat % 2 ^ 256 ∧
      (shiftLeft a shift).toNat = a.toNat * 2 ^ shift.toNat % 2 ^ 256 ∧
      (shiftRight a shift).toNat = a.toNat / 2 ^ shift.toNat ∧
      compareTo a b = (if a.toNat < b.toNat then -1 else if b.toNat < a.toNat then 1 else 0) ∧
      BaseUint.bits a = a.toNat.size ∧
      (inc a).toNat = (a.toNat + 1) % 2 ^ 256 ∧
      ((dec a).toNat : Int) = ((a.toNat : Int) - 1) % 2 ^ 256 :=
  ⟨toNat_add a b, toInt_sub a b, toNat_neg a, toNat_mul a b, toNat_mul32 a b32, toNat_shiftLeft a shift,
    toNat_shiftRight a shift, compareTo_eq a b, bits_eq a, toNat_inc a, toInt_dec a⟩

theorem baseUint256_divide (a b : BaseUint 8) :
    toNat <$> divide a b = if b.toNat = 0 then .error "Division by zero" else .ok (a.toNat / b.toNat) :=
  divide_toNat a b (by decide)

/-- The number an `arith_uint256` holds, as the compact form reads it. -/
def BaseUint.toArith (a : BaseUint 8) : ArithUint256 := ⟨a.toNat, toNat_lt a⟩

/-- The limb loops refine what the compact form uses of `arith_uint256`:
`bits`, `>>` and `<<=`. -/
theorem bits_toArith (a : BaseUint 8) : Membercoin.bits a.toArith = BaseUint.bits a := by
  rw [Membercoin.bits, BaseUint.bits_eq]
  rfl

theorem toArith_shiftRight (a : BaseUint 8) (shift : UInt32) :
    (shiftRight a shift).toArith.val = a.toArith.val >>> shift.toNat := by
  rw [Nat.shiftRight_eq_div_pow]
  exact toNat_shiftRight a shift

theorem toArith_shiftLeft (a : BaseUint 8) (shift : UInt32) :
    (shiftLeft a shift).toArith = ArithUint256.ofNat (a.toArith.val <<< shift.toNat) := by
  rw [Nat.shiftLeft_eq, BaseUint.toArith, BaseUint.toArith, ArithUint256.ofNat, ArithUint256.mk.injEq]
  exact toNat_shiftLeft a shift

end Membercoin
