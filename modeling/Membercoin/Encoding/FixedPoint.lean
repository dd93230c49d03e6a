import Membercoin.Lib.ByteCodec
import Membercoin.Lib.Radix

/-!
# ParseFixedPoint (utilstrencodings.cpp)

`parseFixedPoint val decimals` reads a JSON number as a fixed-point amount with
`decimals` decimals. The mantissa is read digit by digit by
`processMantissaDigit`, which defers zeros in `mantissa_tzeros` so that a long
tail of zeros does not overflow; the exponent collects the exponent literal, the
number of fraction digits and the deferred zeros, and the mantissa is finally
scaled by it under two more overflow guards.

A JSON number is `JsonNumber`, its text `JsonNumber.render` and its value
`JsonNumber.value`. `parseNumber_render` reads a rendered number part by part,
`exists_render_of_parseNumber` says that whatever is accepted is a rendered
number, and `evaluate_eq_some_iff` says which values are accepted: the value
times `10 ^ decimals` must be an integer below `10 ^ 18` in absolute value and,
for a zero, the exponent literal plus `decimals` must lie in `[0, 18)`. The last
condition is the code's: the single integer digit '0' is passed without counting
as a mantissa digit, so a zero's exponent is checked as if it were the value's.

`int end = val.size()` converts modulo `2 ^ 32`; a string of `2 ^ 31` characters
or more is rejected before any character is read. Below that bound the `int`
counters cannot overflow, and they are natural numbers here.
-/

namespace Membercoin.FixedPoint

open ByteCodec Radix

/-- 10^18-1 is the largest arbitrary decimal that will fit in a signed 64-bit integer. -/
def upperBound : Int := 1000000000000000000 - 1

def isDigit (c : UInt8) : Bool := asciiByte '0' ≤ c && c ≤ asciiByte '9'

/-- The loop of `ProcessMantissaDigit`: `n` times, fail if the mantissa is above
`UPPER_BOUND / 10`, then multiply it by ten. -/
def scaleMantissa : Nat → Int → Option Int
  | 0, mantissa => some mantissa
  | n + 1, mantissa => if mantissa > upperBound / 10 then none else scaleMantissa n (mantissa * 10)

def processMantissaDigit (ch : UInt8) (mantissa : Int) (mantissa_tzeros : Nat) : Option (Int × Nat) :=
  if ch = asciiByte '0' then some (mantissa, mantissa_tzeros + 1)
  else do
    let mantissa ← scaleMantissa (mantissa_tzeros + 1) mantissa
    pure (mantissa + ((ch.toNat : Int) - 48), 0)

/-- The digit loops of the integer part and of the fraction: each digit goes
through `ProcessMantissaDigit`, and the digits are counted (`point_ofs` in the
fraction). -/
def mantissaLoop : List UInt8 → Int → Nat → Nat → Option (Int × Nat × Nat × List UInt8)
  | [], mantissa, mantissa_tzeros, point_ofs => some (mantissa, mantissa_tzeros, point_ofs, [])
  | c :: val, mantissa, mantissa_tzeros, point_ofs =>
    if isDigit c then do
      let (mantissa, mantissa_tzeros) ← processMantissaDigit c mantissa mantissa_tzeros
      mantissaLoop val mantissa mantissa_tzeros (point_ofs + 1)
    else some (mantissa, mantissa_tzeros, point_ofs, c :: val)

/-- The integer part: a single '0', or a digit from '1' to '9' and the digits after it. -/
def parseIntPart : List UInt8 → Option (Int × Nat × List UInt8)
  | [] => none
  | c :: val =>
    if c = asciiByte '0' then some (0, 0, val)
    else if asciiByte '1' ≤ c ∧ c ≤ asciiByte '9' then
      (mantissaLoop (c :: val) 0 0 0).map fun r => (r.1, r.2.1, r.2.2.2)
    else none

/-- The optional fraction: '.' and at least one digit. -/
def parseFraction (val : List UInt8) (mantissa : Int) (mantissa_tzeros : Nat) :
    Option (Int × Nat × Nat × List UInt8) :=
  match val with
  | c :: rest =>
    if c = asciiByte '.' then
      match rest with
      | d :: _ => if isDigit d then mantissaLoop rest mantissa mantissa_tzeros 0 else none
      | [] => none
    else some (mantissa, mantissa_tzeros, 0, c :: rest)
  | [] => some (mantissa, mantissa_tzeros, 0, [])

/-- The digit loop of the exponent. -/
def exponentLoop : List UInt8 → Int → Option (Int × List UInt8)
  | [], exponent => some (exponent, [])
  | c :: val, exponent =>
    if isDigit c then
      if exponent > upperBound / 10 then none else exponentLoop val (exponent * 10 + ((c.toNat : Int) - 48))
    else some (exponent, c :: val)

/-- The optional sign of the exponent, `true` for '-'. -/
def parseExponentSign : List UInt8 → Bool × List UInt8
  | [] => (false, [])
  | c :: val =>
    if c = asciiByte '+' then (false, val)
    else if c = asciiByte '-' then (true, val)
    else (false, c :: val)

/-- The optional exponent: 'e' or 'E', an optional sign and at least one digit. -/
def parseExponent : List UInt8 → Option (Bool × Int × List UInt8)
  | [] => some (false, 0, [])
  | c :: val =>
    if c = asciiByte 'e' ∨ c = asciiByte 'E' then
      match parseExponentSign val with
      | (exponent_sign, d :: rest) =>
        if isDigit d then (exponentLoop (d :: rest) 0).map fun r => (exponent_sign, r) else none
      | (_, []) => none
    else some (false, 0, c :: val)

/-- The loop that scales the mantissa by the final exponent. -/
def scaleAmount : Nat → Int → Option Int
  | 0, mantissa => some mantissa
  | n + 1, mantissa =>
    if mantissa > upperBound / 10 ∨ mantissa < -(upperBound / 10) then none else scaleAmount n (mantissa * 10)

/-- Finalize the exponent and the mantissa and convert to one 64-bit fixed-point value. -/
def finalize (mantissa_sign exponent_sign : Bool) (mantissa exponent : Int) (mantissa_tzeros point_ofs : Nat)
    (decimals : Int) : Option Int :=
  let exponent := (if exponent_sign then -exponent else exponent) - point_ofs + mantissa_tzeros + decimals
  let mantissa := if mantissa_sign then -mantissa else mantissa
  if exponent < 0 then none
  else if 18 ≤ exponent then none
  else do
    let mantissa ← scaleAmount exponent.toNat mantissa
    if mantissa > upperBound ∨ mantissa < -upperBound then none else some mantissa

/-- `ParseFixedPoint` on the characters `val[0, end)`; `none` is a false return. -/
def parseNumber (val : List UInt8) (decimals : Int) : Option Int := do
  let (mantissa_sign, val) := if val.head? = some (asciiByte '-') then (true, val.drop 1) else (false, val)
  let (mantissa, mantissa_tzeros, val) ← parseIntPart val
  let (mantissa, mantissa_tzeros, point_ofs, val) ← parseFraction val mantissa mantissa_tzeros
  let (exponent_sign, exponent, val) ← parseExponent val
  if val ≠ [] then none
  else finalize mantissa_sign exponent_sign mantissa exponent mantissa_tzeros point_ofs decimals

/-- `ParseFixedPoint(val, decimals, &amount)`: the amount on a true return, `none`
on a false one (which leaves the amount at zero). -/
def parseFixedPoint (val : List UInt8) (decimals : Int) : Option Int :=
  if 2 ^ 31 ≤ val.length % 2 ^ 32 then none else parseNumber (val.take (val.length % 2 ^ 32)) decimals

example : parseFixedPoint (asciiBytes "-0.1") 8 = some (-10000000) := by decide
example : parseFixedPoint (asciiBytes "1.10000000000000000") 8 = some 110000000 := by decide
example : parseFixedPoint (asciiBytes "1.1e-1") 8 = some 11000000 := by decide
example : parseFixedPoint (asciiBytes "-9999999999.99999999") 8 = some (-999999999999999999) := by decide
example : parseFixedPoint (asciiBytes "10000000000") 8 = none := by decide
example : parseFixedPoint (asciiBytes "01") 8 = none := by decide

/-! ## Digits and their characters -/

def digitChar (d : Nat) : UInt8 := (48 + d).toUInt8

def digitChars (ds : List Nat) : List UInt8 := ds.map digitChar

/-- Whether the text starts with a digit: what the loops stop at. -/
def startsWithDigit : List UInt8 → Bool
  | [] => false
  | c :: _ => isDigit c

theorem isDigit_iff (c : UInt8) : isDigit c = true ↔ 48 ≤ c.toNat ∧ c.toNat ≤ 57 := by
  have h0 : asciiByte '0' = 48 := by decide
  have h9 : asciiByte '9' = 57 := by decide
  simp only [isDigit, h0, h9, Bool.and_eq_true, decide_eq_true_eq, UInt8.le_iff_toNat_le]
  rfl

theorem toNat_digitChar {d : Nat} (hd : d < 10) : (digitChar d).toNat = 48 + d :=
  UInt8.toNat_ofNat_of_lt' (show 48 + d < 256 by omega)

theorem isDigit_digitChar {d : Nat} (hd : d < 10) : isDigit (digitChar d) = true := by
  rw [isDigit_iff, toNat_digitChar hd]
  omega

theorem exists_digitChar {c : UInt8} (hc : isDigit c = true) : ∃ d < 10, digitChar d = c := by
  rw [isDigit_iff] at hc
  refine ⟨c.toNat - 48, by omega, ?_⟩
  rw [digitChar, show 48 + (c.toNat - 48) = c.toNat by omega]
  exact UInt8.ofNat_toNat

theorem digitChar_inj {d d' : Nat} (hd : d < 10) (hd' : d' < 10) (h : digitChar d = digitChar d') : d = d' := by
  have := congrArg UInt8.toNat h
  rw [toNat_digitChar hd, toNat_digitChar hd'] at this
  omega

theorem digitChar_eq_zero_iff {d : Nat} (hd : d < 10) : digitChar d = asciiByte '0' ↔ d = 0 := by
  have h0 : asciiByte '0' = digitChar 0 := by decide
  rw [h0]
  exact ⟨fun h => digitChar_inj hd (by norm_num) h, fun h => by rw [h]⟩

theorem startsWithDigit_digitChars {ds : List Nat} (hds : ∀ d ∈ ds, d < 10) (hne : ds ≠ []) (rest : List UInt8) :
    startsWithDigit (digitChars ds ++ rest) = true := by
  obtain ⟨d, ds, rfl⟩ := List.exists_cons_of_ne_nil hne
  exact isDigit_digitChar (hds d List.mem_cons_self)

/-! ## The mantissa of a list of digits

The state of the mantissa loops after the digits `ds` is the value of `ds` up to
their last nonzero digit, and the number of zeros after it. -/

def mantissaOf (ds : List Nat) : Int := radixValue 10 (ds.rdropWhile (· == 0))

def tzerosOf (ds : List Nat) : Nat := ds.length - (ds.rdropWhile (· == 0)).length

@[simp] theorem mantissaOf_nil : mantissaOf [] = 0 := rfl

@[simp] theorem tzerosOf_nil : tzerosOf [] = 0 := rfl

theorem mantissaOf_nonneg (ds : List Nat) : 0 ≤ mantissaOf ds := Int.natCast_nonneg _

theorem mantissaOf_append_zero (ds : List Nat) : mantissaOf (ds ++ [0]) = mantissaOf ds := by
  rw [mantissaOf, List.rdropWhile_concat_pos _ _ _ (by rfl), mantissaOf]

theorem tzerosOf_append_zero (ds : List Nat) : tzerosOf (ds ++ [0]) = tzerosOf ds + 1 := by
  have hle := (List.rdropWhile_prefix (· == 0) ds).length_le
  rw [tzerosOf, List.rdropWhile_concat_pos _ _ _ (by rfl), List.length_append, List.length_singleton, tzerosOf]
  omega

theorem mantissaOf_append_digit (ds : List Nat) {d : Nat} (hd : d ≠ 0) :
    mantissaOf (ds ++ [d]) = radixValue 10 ds * 10 + d := by
  rw [mantissaOf, List.rdropWhile_concat_neg _ _ _ (by simpa using hd), radixValue_append_singleton]
  push_cast
  rfl

theorem tzerosOf_append_digit (ds : List Nat) {d : Nat} (hd : d ≠ 0) : tzerosOf (ds ++ [d]) = 0 := by
  rw [tzerosOf, List.rdropWhile_concat_neg _ _ _ (by simpa using hd), Nat.sub_self]

/-- The mantissa followed by its deferred zeros is the value of the digits. -/
theorem mantissaOf_mul_pow (ds : List Nat) : mantissaOf ds * 10 ^ tzerosOf ds = radixValue 10 ds := by
  rw [mantissaOf, tzerosOf, radixValue_eq_rdropWhile_zero 10 ds]
  push_cast
  rfl

theorem mantissaOf_le_append (ds es : List Nat) : mantissaOf ds ≤ mantissaOf (ds ++ es) := by
  rw [mantissaOf, mantissaOf]
  exact Int.ofNat_le.mpr (radixValue_rdropWhile_mono 10 (by norm_num) ds es)

/-! ## The loops that multiply by ten -/

theorem guard_iff (m : Int) : (m > upperBound / 10 ∨ m < -(upperBound / 10)) ↔ 10 ^ 17 ≤ m.natAbs := by
  rw [upperBound]
  omega

/-- `scaleAmount n m` is `m * 10 ^ n`, unless `n` steps overflow: the last check
before a multiplication is the largest. -/
theorem scaleAmount_eq (n : Nat) (m : Int) :
    scaleAmount n m = if n ≠ 0 ∧ 10 ^ 18 ≤ m.natAbs * 10 ^ n then none else some (m * 10 ^ n) := by
  induction n generalizing m with
  | zero => simp [scaleAmount]
  | succ n ih =>
    rw [scaleAmount]
    by_cases hg : 10 ^ 17 ≤ m.natAbs
    · have hpow : 10 ≤ 10 ^ (n + 1) := Nat.le_self_pow (Nat.succ_ne_zero n) 10
      have hover : 10 ^ 18 ≤ m.natAbs * 10 ^ (n + 1) :=
        calc 10 ^ 18 = 10 ^ 17 * 10 := by norm_num
          _ ≤ m.natAbs * 10 ^ (n + 1) := Nat.mul_le_mul hg hpow
      rw [if_pos ((guard_iff m).mpr hg), if_pos ⟨Nat.succ_ne_zero n, hover⟩]
    · have hval : m * 10 * 10 ^ n = m * 10 ^ (n + 1) := by ring
      have habs : (m * 10).natAbs * 10 ^ n = m.natAbs * 10 ^ (n + 1) := by
        rw [Int.natAbs_mul]
        show m.natAbs * 10 * 10 ^ n = _
        ring
      rw [if_neg (mt (guard_iff m).mp hg), ih, hval, habs]
      cases n with
      | zero =>
        have hsmall : ¬ 10 ^ 18 ≤ m.natAbs * 10 ^ (0 + 1) := by rw [Nat.zero_add, pow_one]; omega
        rw [if_neg (fun h => absurd rfl h.1), if_neg (fun h => hsmall h.2)]
      | succ n => simp

/-- With a mantissa that is not negative, the one-sided check of
`ProcessMantissaDigit` is the two-sided one of the final scaling. -/
theorem scaleMantissa_eq_scaleAmount (n : Nat) {m : Int} (hm : 0 ≤ m) : scaleMantissa n m = scaleAmount n m := by
  induction n generalizing m with
  | zero => rfl
  | succ n ih =>
    have hlow : ¬ m < -(upperBound / 10) := by rw [upperBound]; omega
    simp only [scaleMantissa, scaleAmount, hlow, or_false]
    split
    · rfl
    · exact ih (by omega)

/-! ## The digit loops -/

/-- One digit of the mantissa: the state after `ds` becomes the state after
`ds ++ [d]`, unless the new mantissa does not fit below `10 ^ 18`. -/
theorem processMantissaDigit_digitChar {d : Nat} (hd : d < 10) {ds : List Nat} (hm : mantissaOf ds < 10 ^ 18) :
    processMantissaDigit (digitChar d) (mantissaOf ds) (tzerosOf ds) =
      if 10 ^ 18 ≤ mantissaOf (ds ++ [d]) then none else some (mantissaOf (ds ++ [d]), tzerosOf (ds ++ [d])) := by
  by_cases h0 : d = 0
  · subst h0
    rw [processMantissaDigit, if_pos ((digitChar_eq_zero_iff hd).mpr rfl), mantissaOf_append_zero,
      tzerosOf_append_zero, if_neg (not_le.mpr hm)]
  · have hv := mantissaOf_mul_pow ds
    have hnat : (mantissaOf ds).natAbs * 10 ^ (tzerosOf ds + 1) = radixValue 10 ds * 10 := by
      have h := congrArg Int.natAbs hv
      have h10 : Int.natAbs 10 = 10 := rfl
      rw [Int.natAbs_mul, Int.natAbs_pow, Int.natAbs_natCast, h10] at h
      rw [pow_succ, ← Nat.mul_assoc, h]
    have hint : mantissaOf ds * 10 ^ (tzerosOf ds + 1) = radixValue 10 ds * 10 := by
      rw [pow_succ, ← mul_assoc, hv]
    rw [processMantissaDigit, if_neg (mt (digitChar_eq_zero_iff hd).mp h0),
      scaleMantissa_eq_scaleAmount _ (mantissaOf_nonneg ds), scaleAmount_eq, hnat, hint,
      mantissaOf_append_digit ds h0, tzerosOf_append_digit ds h0, toNat_digitChar hd]
    by_cases hover : 10 ^ 18 ≤ radixValue 10 ds * 10
    · rw [if_pos ⟨Nat.succ_ne_zero _, hover⟩, if_pos (by omega)]
      rfl
    · rw [if_neg (fun h => hover h.2), if_neg (by omega)]
      simp only [Option.bind_eq_bind, Option.bind_some, Option.pure_def]
      push_cast
      rw [add_sub_cancel_left]

theorem mantissaLoop_of_not_digit {rest : List UInt8} (h : startsWithDigit rest = false) (m : Int) (tz k : Nat) :
    mantissaLoop rest m tz k = some (m, tz, k, rest) := by
  cases rest with
  | nil => rfl
  | cons c rest =>
    have hc : isDigit c = false := h
    rw [mantissaLoop, if_neg (Bool.eq_false_iff.mp hc)]

/-- The mantissa loop on the characters of digits `ds` followed by a non-digit,
from the state after `pre`: the state after `pre ++ ds`, unless the mantissa
overflows on the way. -/
theorem mantissaLoop_digitChars {ds : List Nat} (hds : ∀ d ∈ ds, d < 10) {rest : List UInt8}
    (hrest : startsWithDigit rest = false) (pre : List Nat) (hpre : mantissaOf pre < 10 ^ 18) (k : Nat) :
    mantissaLoop (digitChars ds ++ rest) (mantissaOf pre) (tzerosOf pre) k =
      if 10 ^ 18 ≤ mantissaOf (pre ++ ds) then none
      else some (mantissaOf (pre ++ ds), tzerosOf (pre ++ ds), k + ds.length, rest) := by
  induction ds generalizing pre k with
  | nil =>
    rw [List.append_nil, if_neg (not_le.mpr hpre), digitChars, List.map_nil, List.nil_append,
      mantissaLoop_of_not_digit hrest, List.length_nil, Nat.add_zero]
  | cons d ds ih =>
    have hd : d < 10 := hds d List.mem_cons_self
    have hmono := mantissaOf_le_append (pre ++ [d]) ds
    rw [List.append_assoc, List.singleton_append] at hmono
    rw [digitChars, List.map_cons, List.cons_append, mantissaLoop, if_pos (isDigit_digitChar hd),
      processMantissaDigit_digitChar hd hpre]
    by_cases hover : 10 ^ 18 ≤ mantissaOf (pre ++ [d])
    · rw [if_pos hover, if_pos (le_trans hover hmono)]
      rfl
    · rw [if_neg hover]
      show mantissaLoop (digitChars ds ++ rest) (mantissaOf (pre ++ [d])) (tzerosOf (pre ++ [d])) (k + 1) = _
      rw [ih (fun x hx => hds x (List.mem_cons_of_mem d hx)) (pre ++ [d]) (not_le.mp hover), List.append_assoc,
        List.singleton_append, List.length_cons, Nat.add_right_comm, Nat.add_assoc]

/-- What the mantissa loop accepts is the characters of digits followed by a non-digit. -/
theorem mantissaLoop_eq_some {val : List UInt8} {m : Int} {tz k : Nat} {r : Int × Nat × Nat × List UInt8}
    (h : mantissaLoop val m tz k = some r) :
    ∃ ds, (∀ d ∈ ds, d < 10) ∧ val = digitChars ds ++ r.2.2.2 ∧ startsWithDigit r.2.2.2 = false := by
  induction val generalizing m tz k with
  | nil =>
    rw [mantissaLoop] at h
    cases h
    exact ⟨[], by simp, rfl, rfl⟩
  | cons c val ih =>
    rw [mantissaLoop] at h
    by_cases hc : isDigit c = true
    · rw [if_pos hc] at h
      obtain ⟨⟨m', tz'⟩, -, h⟩ := Option.bind_eq_some_iff.mp h
      obtain ⟨ds, hds, hval, hrest⟩ := ih h
      obtain ⟨d, hd, rfl⟩ := exists_digitChar hc
      refine ⟨d :: ds, ?_, by rw [hval]; rfl, hrest⟩
      intro x hx
      rcases List.mem_cons.mp hx with rfl | hx
      · exact hd
      · exact hds x hx
    · rw [if_neg hc] at h
      cases h
      exact ⟨[], by simp, rfl, Bool.eq_false_iff.mpr hc⟩

theorem exponentLoop_of_not_digit {rest : List UInt8} (h : startsWithDigit rest = false) (e : Int) :
    exponentLoop rest e = some (e, rest) := by
  cases rest with
  | nil => rfl
  | cons c rest =>
    have hc : isDigit c = false := h
    rw [exponentLoop, if_neg (Bool.eq_false_iff.mp hc)]

/-- The exponent loop on the characters of digits `ds` followed by a non-digit:
their value after `e`, unless it reaches `10 ^ 18`. -/
theorem exponentLoop_digitChars {ds : List Nat} (hds : ∀ d ∈ ds, d < 10) {rest : List UInt8}
    (hrest : startsWithDigit rest = false) {e : Nat} (he : e < 10 ^ 18) :
    exponentLoop (digitChars ds ++ rest) e =
      if 10 ^ 18 ≤ e * 10 ^ ds.length + radixValue 10 ds then none
      else some (((e * 10 ^ ds.length + radixValue 10 ds : Nat) : Int), rest) := by
  induction ds generalizing e with
  | nil =>
    rw [digitChars, List.map_nil, List.nil_append, exponentLoop_of_not_digit hrest, List.length_nil, pow_zero,
      Nat.mul_one, radixValue_nil, Nat.add_zero, if_neg (not_le.mpr he)]
  | cons d ds ih =>
    have hd : d < 10 := hds d List.mem_cons_self
    have hval : e * 10 ^ (d :: ds).length + radixValue 10 (d :: ds) = (e * 10 + d) * 10 ^ ds.length + radixValue 10 ds := by
      rw [List.length_cons, radixValue_cons, pow_succ]
      ring
    rw [digitChars, List.map_cons, List.cons_append, exponentLoop, if_pos (isDigit_digitChar hd), hval]
    by_cases hg : 10 ^ 17 ≤ e
    · have hover : 10 ^ 18 ≤ (e * 10 + d) * 10 ^ ds.length + radixValue 10 ds := by
        have : 1 ≤ 10 ^ ds.length := Nat.one_le_pow _ _ (by norm_num)
        have : e * 10 + d ≤ (e * 10 + d) * 10 ^ ds.length := Nat.le_mul_of_pos_right _ this
        omega
      rw [if_pos (by rw [upperBound]; omega), if_pos hover]
    · rw [if_neg (by rw [upperBound]; omega), toNat_digitChar hd]
      have hcast : (e : Int) * 10 + ((48 + d : Nat) - 48 : Int) = ((e * 10 + d : Nat) : Int) := by push_cast; ring
      rw [hcast]
      exact ih (fun x hx => hds x (List.mem_cons_of_mem d hx)) (by omega)

/-- What the exponent loop accepts is the characters of digits followed by a non-digit. -/
theorem exponentLoop_eq_some {val : List UInt8} {e : Int} {r : Int × List UInt8} (h : exponentLoop val e = some r) :
    ∃ ds, (∀ d ∈ ds, d < 10) ∧ val = digitChars ds ++ r.2 ∧ startsWithDigit r.2 = false := by
  induction val generalizing e with
  | nil =>
    rw [exponentLoop] at h
    cases h
    exact ⟨[], by simp, rfl, rfl⟩
  | cons c val ih =>
    rw [exponentLoop] at h
    by_cases hc : isDigit c = true
    · rw [if_pos hc] at h
      split at h
      · cases h
      · obtain ⟨ds, hds, hval, hrest⟩ := ih h
        obtain ⟨d, hd, rfl⟩ := exists_digitChar hc
        refine ⟨d :: ds, ?_, by rw [hval]; rfl, hrest⟩
        intro x hx
        rcases List.mem_cons.mp hx with rfl | hx
        · exact hd
        · exact hds x hx
    · rw [if_neg hc] at h
      cases h
      exact ⟨[], by simp, rfl, Bool.eq_false_iff.mpr hc⟩

/-! ## JSON numbers -/

/-- The exponent of a JSON number: 'e' or 'E', an optional sign (`some true` is
'-') and at least one digit. -/
structure Exponent where
  upper : Bool
  sign : Option Bool
  digits : List Nat
  digits_lt : ∀ d ∈ digits, d < 10
  digits_ne : digits ≠ []

/-- A number of the grammar `-?(0|[1-9][0-9]*)(.[0-9]+)?([eE][+-]?[0-9]+)?`. -/
structure JsonNumber where
  negative : Bool
  intDigits : List Nat
  fracDigits : Option (List Nat)
  exponent : Option Exponent
  int_lt : ∀ d ∈ intDigits, d < 10
  int_wf : intDigits = [0] ∨ (intDigits ≠ [] ∧ intDigits.head? ≠ some 0)
  frac_lt : ∀ f ∈ fracDigits, ∀ d ∈ f, d < 10
  frac_ne : ∀ f ∈ fracDigits, f ≠ []

def signChars : Option Bool → List UInt8
  | none => []
  | some false => [asciiByte '+']
  | some true => [asciiByte '-']

def Exponent.render (e : Exponent) : List UInt8 :=
  (if e.upper then asciiByte 'E' else asciiByte 'e') :: (signChars e.sign ++ digitChars e.digits)

def fracChars : Option (List Nat) → List UInt8
  | none => []
  | some f => asciiByte '.' :: digitChars f

def expChars : Option Exponent → List UInt8
  | none => []
  | some e => e.render

def JsonNumber.render (n : JsonNumber) : List UInt8 :=
  (if n.negative then [asciiByte '-'] else []) ++ (digitChars n.intDigits ++ (fracChars n.fracDigits ++ expChars n.exponent))

/-- The exponent literal without its sign. -/
def JsonNumber.exponentDigits (n : JsonNumber) : Nat :=
  match n.exponent with
  | none => 0
  | some e => radixValue 10 e.digits

def JsonNumber.exponentNegative (n : JsonNumber) : Bool :=
  match n.exponent with
  | none => false
  | some e => e.sign = some true

def JsonNumber.exponentValue (n : JsonNumber) : Int :=
  if n.exponentNegative then -(n.exponentDigits : Int) else n.exponentDigits

def JsonNumber.fracLength (n : JsonNumber) : Nat := (n.fracDigits.getD []).length

def JsonNumber.value (n : JsonNumber) : ℚ :=
  (if n.negative then -1 else 1) * (radixValue 10 (n.intDigits ++ n.fracDigits.getD []) : ℚ) *
    10 ^ (n.exponentValue - n.fracLength)

/-- The digits that go through `ProcessMantissaDigit`: all but a single integer digit '0'. -/
def JsonNumber.mantissaDigits (n : JsonNumber) : List Nat :=
  (if n.intDigits = [0] then [] else n.intDigits) ++ n.fracDigits.getD []

/-- What `parseNumber` computes from the parts of a number. -/
def JsonNumber.evaluate (n : JsonNumber) (decimals : Int) : Option Int :=
  if 10 ^ 18 ≤ mantissaOf n.mantissaDigits then none
  else if 10 ^ 18 ≤ n.exponentDigits then none
  else finalize n.negative n.exponentNegative (mantissaOf n.mantissaDigits) n.exponentDigits
    (tzerosOf n.mantissaDigits) n.fracLength decimals

/-! ## Reading a rendered number -/

theorem digitChar_ne {d : Nat} (hd : d < 10) {c : UInt8} (hc : isDigit c = false) : digitChar d ≠ c := by
  intro h
  rw [← h, isDigit_digitChar hd] at hc
  cases hc

theorem startsWithDigit_fracChars_expChars (frac : Option (List Nat)) (exp : Option Exponent) :
    startsWithDigit (fracChars frac ++ expChars exp) = false := by
  cases frac with
  | some f => rfl
  | none =>
    cases exp with
    | none => rfl
    | some e =>
      show isDigit (if e.upper then asciiByte 'E' else asciiByte 'e') = false
      split <;> decide

theorem parseIntPart_digitChars {ds : List Nat} (hds : ∀ d ∈ ds, d < 10)
    (hwf : ds = [0] ∨ (ds ≠ [] ∧ ds.head? ≠ some 0)) {rest : List UInt8} (hrest : startsWithDigit rest = false) :
    parseIntPart (digitChars ds ++ rest) =
      if 10 ^ 18 ≤ mantissaOf (if ds = [0] then [] else ds) then none
      else some (mantissaOf (if ds = [0] then [] else ds), tzerosOf (if ds = [0] then [] else ds), rest) := by
  rcases hwf with rfl | ⟨hne, hhead⟩
  · rfl
  · obtain ⟨d, ds', rfl⟩ := List.exists_cons_of_ne_nil hne
    have hd : d < 10 := hds d List.mem_cons_self
    have hd0 : d ≠ 0 := fun h => hhead (by rw [h]; rfl)
    have hne0 : d :: ds' ≠ [0] := fun h => hd0 (List.cons.inj h).1
    have hrange : asciiByte '1' ≤ digitChar d ∧ digitChar d ≤ asciiByte '9' := by
      have h1 : asciiByte '1' = 49 := by decide
      have h9 : asciiByte '9' = 57 := by decide
      rw [h1, h9, UInt8.le_iff_toNat_le, UInt8.le_iff_toNat_le, toNat_digitChar hd]
      exact ⟨by show 49 ≤ 48 + d; omega, by show 48 + d ≤ 57; omega⟩
    have hloop := mantissaLoop_digitChars hds hrest [] (by norm_num) 0
    rw [List.nil_append, mantissaOf_nil, tzerosOf_nil] at hloop
    rw [if_neg hne0, digitChars, List.map_cons, List.cons_append, parseIntPart,
      if_neg (mt (digitChar_eq_zero_iff hd).mp hd0), if_pos hrange, ← List.cons_append, ← List.map_cons,
      ← digitChars, hloop]
    split <;> rfl

theorem parseFraction_fracChars {frac : Option (List Nat)} (hlt : ∀ f ∈ frac, ∀ d ∈ f, d < 10)
    (hne : ∀ f ∈ frac, f ≠ []) {rest : List UInt8} (hrest : startsWithDigit rest = false)
    (hdot : rest.head? ≠ some (asciiByte '.')) (pre : List Nat) (hpre : mantissaOf pre < 10 ^ 18) :
    parseFraction (fracChars frac ++ rest) (mantissaOf pre) (tzerosOf pre) =
      if 10 ^ 18 ≤ mantissaOf (pre ++ frac.getD []) then none
      else some (mantissaOf (pre ++ frac.getD []), tzerosOf (pre ++ frac.getD []), (frac.getD []).length, rest) := by
  cases frac with
  | none =>
    rw [fracChars, List.nil_append, Option.getD_none, List.append_nil, if_neg (not_le.mpr hpre)]
    cases rest with
    | nil => rfl
    | cons c rest =>
      have hc : c ≠ asciiByte '.' := fun h => hdot (by rw [h]; rfl)
      rw [parseFraction.eq_def]
      dsimp only
      rw [if_neg hc, List.length_nil]
  | some f =>
    have hf := hlt f rfl
    obtain ⟨d, f', rfl⟩ := List.exists_cons_of_ne_nil (hne _ rfl)
    rw [fracChars, Option.getD_some, List.cons_append, parseFraction.eq_def]
    dsimp only
    rw [if_pos rfl, digitChars, List.map_cons, List.cons_append]
    dsimp only
    rw [if_pos (isDigit_digitChar (hf d List.mem_cons_self)), ← List.cons_append, ← List.map_cons, ← digitChars,
      mantissaLoop_digitChars hf hrest pre hpre 0, Nat.zero_add]

theorem parseExponentSign_signChars (sign : Option Bool) {rest : List UInt8} (hrest : startsWithDigit rest = true) :
    parseExponentSign (signChars sign ++ rest) = (decide (sign = some true), rest) := by
  cases sign with
  | some b => cases b <;> rfl
  | none =>
    cases rest with
    | nil => cases hrest
    | cons c rest =>
      have hc : isDigit c = true := hrest
      have hplus : c ≠ asciiByte '+' := fun h => by rw [h] at hc; cases hc
      have hminus : c ≠ asciiByte '-' := fun h => by rw [h] at hc; cases hc
      rw [signChars, List.nil_append, parseExponentSign, if_neg hplus, if_neg hminus]
      rfl

theorem parseExponent_expChars (n : JsonNumber) :
    parseExponent (expChars n.exponent) =
      if 10 ^ 18 ≤ n.exponentDigits then none else some (n.exponentNegative, (n.exponentDigits : Int), []) := by
  rw [JsonNumber.exponentDigits, JsonNumber.exponentNegative]
  cases n.exponent with
  | none => rfl
  | some e =>
    obtain ⟨d, ds, hds⟩ := List.exists_cons_of_ne_nil e.digits_ne
    have hd : d < 10 := e.digits_lt d (by rw [hds]; exact List.mem_cons_self)
    have hstart : startsWithDigit (digitChars e.digits) = true := by
      rw [← List.append_nil (digitChars e.digits)]
      exact startsWithDigit_digitChars e.digits_lt e.digits_ne []
    have hmark : (if e.upper then asciiByte 'E' else asciiByte 'e') = asciiByte 'e' ∨
        (if e.upper then asciiByte 'E' else asciiByte 'e') = asciiByte 'E' := by
      split
      · exact Or.inr rfl
      · exact Or.inl rfl
    have hloop := exponentLoop_digitChars e.digits_lt (show startsWithDigit ([] : List UInt8) = false from rfl)
      (show (0 : Nat) < 10 ^ 18 by norm_num)
    rw [Nat.zero_mul, Nat.zero_add, List.append_nil] at hloop
    rw [expChars, Exponent.render, parseExponent, if_pos hmark, parseExponentSign_signChars _ hstart]
    rw [hds, digitChars, List.map_cons]
    dsimp only
    rw [if_pos (isDigit_digitChar hd), ← List.map_cons, ← hds, ← digitChars]
    rw [show ((0 : Nat) : Int) = 0 from rfl] at hloop
    rw [hloop]
    split <;> rfl

theorem intDigits_ne_nil (n : JsonNumber) : n.intDigits ≠ [] := by
  rcases n.int_wf with h | ⟨h, -⟩
  · rw [h]
    exact List.cons_ne_nil 0 []
  · exact h

theorem startsWithDigit_expChars (exp : Option Exponent) : startsWithDigit (expChars exp) = false := by
  have h := startsWithDigit_fracChars_expChars none exp
  rwa [fracChars, List.nil_append] at h

theorem head?_expChars (exp : Option Exponent) : (expChars exp).head? ≠ some (asciiByte '.') := by
  cases exp with
  | none => simp [expChars]
  | some e =>
    rw [expChars, Exponent.render, List.head?_cons, ne_eq, Option.some_inj]
    split <;> decide

/-- A rendered number is read part by part into `evaluate`. -/
theorem parseNumber_render (n : JsonNumber) (decimals : Int) : parseNumber n.render decimals = n.evaluate decimals := by
  set body := digitChars n.intDigits ++ (fracChars n.fracDigits ++ expChars n.exponent) with hbody
  have hdigit : startsWithDigit body = true := startsWithDigit_digitChars n.int_lt (intDigits_ne_nil n) _
  have hminus : body.head? ≠ some (asciiByte '-') := by
    cases hb : body with
    | nil => rw [hb] at hdigit; cases hdigit
    | cons c rest =>
      rw [hb] at hdigit
      intro h
      rw [List.head?_cons, Option.some_inj] at h
      have hc : isDigit c = true := hdigit
      rw [h] at hc
      cases hc
  have hsign : (if n.render.head? = some (asciiByte '-') then (true, n.render.drop 1) else (false, n.render)) =
      (n.negative, body) := by
    rw [JsonNumber.render, ← hbody]
    cases n.negative with
    | true => rfl
    | false => rw [if_neg (by simpa using hminus)]; rfl
  rw [parseNumber, hsign]
  dsimp only
  rw [hbody, parseIntPart_digitChars n.int_lt n.int_wf (startsWithDigit_fracChars_expChars _ _)]
  set pre := if n.intDigits = [0] then [] else n.intDigits with hpre_def
  have hmant : n.mantissaDigits = pre ++ n.fracDigits.getD [] := rfl
  by_cases hpre : 10 ^ 18 ≤ mantissaOf pre
  · rw [if_pos hpre, JsonNumber.evaluate, hmant, if_pos (le_trans hpre (mantissaOf_le_append pre _))]
    rfl
  · rw [if_neg hpre]
    simp only [Option.bind_eq_bind, Option.bind_some]
    rw [parseFraction_fracChars n.frac_lt n.frac_ne (startsWithDigit_expChars _) (head?_expChars _) pre
      (not_le.mp hpre)]
    by_cases hm : 10 ^ 18 ≤ mantissaOf (pre ++ n.fracDigits.getD [])
    · rw [if_pos hm, JsonNumber.evaluate, hmant, if_pos hm]
      rfl
    · rw [if_neg hm]
      simp only [Option.bind_some]
      rw [parseExponent_expChars, JsonNumber.evaluate, hmant, if_neg hm]
      by_cases he : 10 ^ 18 ≤ n.exponentDigits
      · rw [if_pos he, if_pos he]
        rfl
      · rw [if_neg he, if_neg he]
        rfl

/-! ## What is accepted is a rendered number -/

theorem isDigit_of_range {c : UInt8} (h : asciiByte '1' ≤ c ∧ c ≤ asciiByte '9') : isDigit c = true := by
  have h1 : asciiByte '1' = 49 := by decide
  have h9 : asciiByte '9' = 57 := by decide
  rw [h1, h9, UInt8.le_iff_toNat_le, UInt8.le_iff_toNat_le] at h
  rw [isDigit_iff]
  exact ⟨by have := h.1; exact Nat.le_trans (by decide) this, h.2⟩

/-- A run of digits read by a loop that starts at a digit is not empty. -/
theorem exists_cons_of_digitChars {c : UInt8} (hc : isDigit c = true) {val rest : List UInt8} {ds : List Nat}
    (hval : c :: val = digitChars ds ++ rest) (hrest : startsWithDigit rest = false) :
    ∃ d ds', ds = d :: ds' ∧ digitChar d = c := by
  cases ds with
  | nil =>
    rw [digitChars, List.map_nil, List.nil_append] at hval
    rw [← hval] at hrest
    have hc' : isDigit c = false := hrest
    rw [hc] at hc'
    cases hc'
  | cons d ds' => exact ⟨d, ds', rfl, (List.cons.inj hval).1.symm⟩

theorem parseIntPart_eq_some {val : List UInt8} {r : Int × Nat × List UInt8} (h : parseIntPart val = some r) :
    ∃ ds, (∀ d ∈ ds, d < 10) ∧ (ds = [0] ∨ (ds ≠ [] ∧ ds.head? ≠ some 0)) ∧ val = digitChars ds ++ r.2.2 := by
  cases val with
  | nil => cases h
  | cons c val =>
    rw [parseIntPart] at h
    by_cases h0 : c = asciiByte '0'
    · rw [if_pos h0] at h
      cases h
      exact ⟨[0], by simp, Or.inl rfl, by rw [h0]; rfl⟩
    · rw [if_neg h0] at h
      by_cases hr : asciiByte '1' ≤ c ∧ c ≤ asciiByte '9'
      · rw [if_pos hr] at h
        obtain ⟨r', hr', rfl⟩ := Option.map_eq_some_iff.mp h
        obtain ⟨ds, hds, hval, hrest⟩ := mantissaLoop_eq_some hr'
        obtain ⟨d, ds', rfl, hcd⟩ := exists_cons_of_digitChars (isDigit_of_range hr) hval hrest
        have hd0 : d ≠ 0 := fun hd => h0 (by rw [← hcd, hd]; decide)
        exact ⟨d :: ds', hds, Or.inr ⟨List.cons_ne_nil _ _, by simpa using hd0⟩, hval⟩
      · rw [if_neg hr] at h
        cases h

theorem parseFraction_eq_some {val : List UInt8} {m : Int} {tz : Nat} {r : Int × Nat × Nat × List UInt8}
    (h : parseFraction val m tz = some r) :
    ∃ frac : Option (List Nat), (∀ f ∈ frac, ∀ d ∈ f, d < 10) ∧ (∀ f ∈ frac, f ≠ []) ∧
      val = fracChars frac ++ r.2.2.2 := by
  cases val with
  | nil =>
    cases h
    exact ⟨none, by simp, by simp, rfl⟩
  | cons c rest =>
    rw [parseFraction.eq_def] at h
    dsimp only at h
    by_cases hdot : c = asciiByte '.'
    · rw [if_pos hdot] at h
      cases rest with
      | nil => cases h
      | cons d rest =>
        dsimp only at h
        by_cases hd : isDigit d = true
        · rw [if_pos hd] at h
          obtain ⟨ds, hds, hval, hrest⟩ := mantissaLoop_eq_some h
          obtain ⟨e, ds', rfl, -⟩ := exists_cons_of_digitChars hd hval hrest
          refine ⟨some (e :: ds'), fun f hf => ?_, fun f hf => ?_, by rw [hdot, hval]; rfl⟩
          · cases hf
            exact hds
          · cases hf
            exact List.cons_ne_nil _ _
        · rw [if_neg hd] at h
          cases h
    · rw [if_neg hdot] at h
      cases h
      exact ⟨none, by simp, by simp, rfl⟩

theorem parseExponentSign_eq (val : List UInt8) :
    ∃ sign, val = signChars sign ++ (parseExponentSign val).2 ∧
      (parseExponentSign val).1 = decide (sign = some true) := by
  cases val with
  | nil => exact ⟨none, rfl, rfl⟩
  | cons c val =>
    rw [parseExponentSign]
    by_cases hplus : c = asciiByte '+'
    · rw [if_pos hplus, hplus]
      exact ⟨some false, rfl, rfl⟩
    · rw [if_neg hplus]
      by_cases hminus : c = asciiByte '-'
      · rw [if_pos hminus, hminus]
        exact ⟨some true, rfl, rfl⟩
      · rw [if_neg hminus]
        exact ⟨none, rfl, rfl⟩

theorem parseExponent_eq_some {val : List UInt8} {r : Bool × Int × List UInt8} (h : parseExponent val = some r) :
    ∃ exp : Option Exponent, val = expChars exp ++ r.2.2 := by
  cases val with
  | nil =>
    cases h
    exact ⟨none, rfl⟩
  | cons c val =>
    rw [parseExponent] at h
    by_cases hmark : c = asciiByte 'e' ∨ c = asciiByte 'E'
    · rw [if_pos hmark] at h
      obtain ⟨sign, hval, -⟩ := parseExponentSign_eq val
      rcases hps : parseExponentSign val with ⟨sgn, _ | ⟨d, rest⟩⟩
      · rw [hps] at h
        cases h
      · rw [hps] at h hval
        dsimp only at h hval
        by_cases hd : isDigit d = true
        · rw [if_pos hd] at h
          obtain ⟨r', hr', rfl⟩ := Option.map_eq_some_iff.mp h
          obtain ⟨ds, hds, hdr, hrest⟩ := exponentLoop_eq_some hr'
          obtain ⟨e, ds', rfl, -⟩ := exists_cons_of_digitChars hd hdr hrest
          refine ⟨some ⟨decide (c = asciiByte 'E'), sign, e :: ds', hds, List.cons_ne_nil _ _⟩, ?_⟩
          have hc : (if decide (c = asciiByte 'E') = true then asciiByte 'E' else asciiByte 'e') = c := by
            rcases hmark with hc | hc
            · rw [hc]
              decide
            · rw [hc]
              decide
          rw [expChars, Exponent.render, hc, hval, hdr]
          simp
        · rw [if_neg hd] at h
          cases h
    · rw [if_neg hmark] at h
      cases h
      exact ⟨none, rfl⟩

/-- Whatever `parseNumber` accepts is a rendered number. -/
theorem exists_render_of_parseNumber {val : List UInt8} {decimals a : Int} (h : parseNumber val decimals = some a) :
    ∃ n : JsonNumber, n.render = val := by
  obtain ⟨neg, body, hsign, hval⟩ : ∃ neg body,
      (if val.head? = some (asciiByte '-') then (true, val.drop 1) else (false, val)) = (neg, body) ∧
        val = (if neg then [asciiByte '-'] else []) ++ body := by
    by_cases hh : val.head? = some (asciiByte '-')
    · refine ⟨true, val.drop 1, if_pos hh, ?_⟩
      cases val with
      | nil => cases hh
      | cons c val =>
        rw [List.head?_cons, Option.some_inj] at hh
        rw [hh]
        rfl
    · exact ⟨false, val, if_neg hh, rfl⟩
  rw [parseNumber, hsign] at h
  dsimp only at h
  obtain ⟨⟨m, tz, v1⟩, h1, h⟩ := Option.bind_eq_some_iff.mp h
  obtain ⟨⟨m', tz', p, v2⟩, h2, h⟩ := Option.bind_eq_some_iff.mp h
  obtain ⟨⟨es, e, v3⟩, h3, h⟩ := Option.bind_eq_some_iff.mp h
  have hv3 : v3 = [] := by
    by_contra hne
    dsimp only at h
    rw [if_pos hne] at h
    cases h
  obtain ⟨ints, hlt, hwf, hb⟩ := parseIntPart_eq_some h1
  obtain ⟨frac, hflt, hfne, hv1⟩ := parseFraction_eq_some h2
  obtain ⟨exp, hv2⟩ := parseExponent_eq_some h3
  refine ⟨⟨neg, ints, frac, exp, hlt, hwf, hflt, hfne⟩, ?_⟩
  dsimp only at hb hv1 hv2
  rw [hval, hb, hv1, hv2, hv3, List.append_nil]
  rfl

/-! ## Which values are accepted -/

/-- The final scaling and its two guards: the amount is the signed mantissa times
`10 ^ X` where `X` is the final exponent, if `X` is in `[0, 18)` and the amount
stays below `10 ^ 18`. -/
theorem finalize_eq (mantissa_sign exponent_sign : Bool) (mantissa exponent : Int) (mantissa_tzeros point_ofs : Nat)
    (decimals : Int) {X : Int}
    (hX : (if exponent_sign then -exponent else exponent) - point_ofs + mantissa_tzeros + decimals = X) :
    finalize mantissa_sign exponent_sign mantissa exponent mantissa_tzeros point_ofs decimals =
      if 0 ≤ X ∧ X < 18 ∧ mantissa.natAbs * 10 ^ X.toNat < 10 ^ 18 then
        some ((if mantissa_sign then -mantissa else mantissa) * 10 ^ X.toNat)
      else none := by
  have habs : (if mantissa_sign then -mantissa else mantissa).natAbs = mantissa.natAbs := by
    split
    · exact Int.natAbs_neg mantissa
    · rfl
  dsimp only [finalize]
  rw [hX]
  generalize (if mantissa_sign then -mantissa else mantissa) = signed at habs ⊢
  have hguard : ∀ m : Int, (m > upperBound ∨ m < -upperBound) ↔ 10 ^ 18 ≤ m.natAbs := by
    intro m
    rw [upperBound]
    omega
  have hsize : (signed * 10 ^ X.toNat).natAbs = mantissa.natAbs * 10 ^ X.toNat := by
    rw [Int.natAbs_mul, habs, Int.natAbs_pow]
    rfl
  by_cases hrange : 0 ≤ X ∧ X < 18
  · have hlow : ¬ X < 0 := by omega
    have hhigh : ¬ 18 ≤ X := by omega
    rw [if_neg hlow, if_neg hhigh, scaleAmount_eq, habs]
    by_cases hover : 10 ^ 18 ≤ mantissa.natAbs * 10 ^ X.toNat
    · have hcond : ¬ (0 ≤ X ∧ X < 18 ∧ mantissa.natAbs * 10 ^ X.toNat < 10 ^ 18) := fun h => absurd hover (not_le.mpr h.2.2)
      rw [if_neg hcond]
      by_cases hk : X.toNat = 0
      · have hscale : ¬ (X.toNat ≠ 0 ∧ 10 ^ 18 ≤ mantissa.natAbs * 10 ^ X.toNat) := fun h => h.1 hk
        rw [if_neg hscale]
        simp only [Option.bind_eq_bind, Option.bind_some]
        rw [if_pos ((hguard _).mpr (by rw [hsize]; exact hover))]
      · have hscale : X.toNat ≠ 0 ∧ 10 ^ 18 ≤ mantissa.natAbs * 10 ^ X.toNat := ⟨hk, hover⟩
        rw [if_pos hscale]
        rfl
    · have hscale : ¬ (X.toNat ≠ 0 ∧ 10 ^ 18 ≤ mantissa.natAbs * 10 ^ X.toNat) := fun h => hover h.2
      have hcond : 0 ≤ X ∧ X < 18 ∧ mantissa.natAbs * 10 ^ X.toNat < 10 ^ 18 := ⟨hrange.1, hrange.2, not_le.mp hover⟩
      rw [if_neg hscale, if_pos hcond]
      simp only [Option.bind_eq_bind, Option.bind_some]
      rw [if_neg (fun h => hover (by rw [← hsize]; exact (hguard _).mp h))]
  · have hcond : ¬ (0 ≤ X ∧ X < 18 ∧ mantissa.natAbs * 10 ^ X.toNat < 10 ^ 18) := fun h => hrange ⟨h.1, h.2.1⟩
    rw [if_neg hcond]
    by_cases hneg : X < 0
    · rw [if_pos hneg]
    · have hhigh : 18 ≤ X := by omega
      rw [if_neg hneg, if_pos hhigh]

theorem radixValue_mantissaDigits (n : JsonNumber) :
    radixValue 10 n.mantissaDigits = radixValue 10 (n.intDigits ++ n.fracDigits.getD []) := by
  rw [JsonNumber.mantissaDigits]
  split
  · next h => rw [h, List.nil_append, List.singleton_append, radixValue_cons, Nat.zero_mul, Nat.zero_add]
  · rfl

theorem length_mantissaDigits_le (n : JsonNumber) : n.mantissaDigits.length ≤ n.render.length := by
  have hm : n.mantissaDigits.length ≤ n.intDigits.length + (n.fracDigits.getD []).length := by
    rw [JsonNumber.mantissaDigits, List.length_append]
    split <;> simp
  have hf : (fracChars n.fracDigits).length = (n.fracDigits.getD []).length + if n.fracDigits = none then 0 else 1 := by
    cases n.fracDigits <;> simp [fracChars, digitChars]
  have hr : n.render.length = (if n.negative then 1 else 0) + n.intDigits.length +
      (fracChars n.fracDigits).length + (expChars n.exponent).length := by
    rw [JsonNumber.render]
    split <;> simp [digitChars] <;> omega
  omega

theorem fracLength_le (n : JsonNumber) : n.fracLength ≤ n.mantissaDigits.length := by
  rw [JsonNumber.fracLength, JsonNumber.mantissaDigits, List.length_append]
  omega

/-- The value times `10 ^ decimals` is the signed mantissa times ten to the final exponent. -/
theorem value_mul_pow (n : JsonNumber) (decimals : Int) :
    n.value * 10 ^ decimals = (if n.negative then -1 else 1) * (mantissaOf n.mantissaDigits : ℚ) *
      10 ^ (n.exponentValue - n.fracLength + tzerosOf n.mantissaDigits + decimals) := by
  have hv : (radixValue 10 (n.intDigits ++ n.fracDigits.getD []) : ℚ) =
      (mantissaOf n.mantissaDigits : ℚ) * 10 ^ (tzerosOf n.mantissaDigits : Int) := by
    rw [← radixValue_mantissaDigits, zpow_natCast]
    exact_mod_cast (mantissaOf_mul_pow n.mantissaDigits).symm
  have h10 : (10 : ℚ) ≠ 0 := by norm_num
  rw [JsonNumber.value, hv, zpow_add₀ h10, zpow_add₀ h10]
  ring

theorem mantissaDigits_lt (n : JsonNumber) : ∀ d ∈ n.mantissaDigits, d < 10 := by
  intro d hd
  rw [JsonNumber.mantissaDigits, List.mem_append] at hd
  rcases hd with hd | hd
  · split at hd
    · cases hd
    · exact n.int_lt d hd
  · cases hf : n.fracDigits with
    | none => rw [hf] at hd; cases hd
    | some f => rw [hf] at hd; exact n.frac_lt f hf d hd

/-- A zero mantissa: all its digits are zeros after a single integer '0', and
the deferred zeros are the fraction digits. -/
theorem mantissaOf_eq_zero {n : JsonNumber} (h : mantissaOf n.mantissaDigits = 0) :
    tzerosOf n.mantissaDigits = n.fracLength ∧ radixValue 10 (n.intDigits ++ n.fracDigits.getD []) = 0 := by
  have hv := mantissaOf_mul_pow n.mantissaDigits
  rw [h, zero_mul, radixValue_mantissaDigits] at hv
  have hzero : radixValue 10 (n.intDigits ++ n.fracDigits.getD []) = 0 := by exact_mod_cast hv.symm
  refine ⟨?_, hzero⟩
  have hdl : (n.mantissaDigits.rdropWhile (· == 0)) = [] := by
    by_contra hne
    have hmod := radixValue_rdropWhile_mod_ne_zero 10 (mantissaDigits_lt n) hne
    have h' : ((radixValue 10 (n.mantissaDigits.rdropWhile (· == 0)) : ℕ) : ℤ) = 0 := h
    rw [Int.natCast_eq_zero.mp h'] at hmod
    exact hmod rfl
  have hint : n.intDigits = [0] := by
    rcases n.int_wf with h0 | ⟨hne, hhead⟩
    · exact h0
    · obtain ⟨d, ds, hds⟩ := List.exists_cons_of_ne_nil hne
      have hd0 : d ≠ 0 := fun hd => hhead (by rw [hds, hd]; rfl)
      have hpos := pow_length_le_radixValue (b := 10) hd0 (ds ++ n.fracDigits.getD [])
      rw [← List.cons_append, ← hds, hzero] at hpos
      exact absurd hpos (Nat.not_le.mpr (Nat.pow_pos (by norm_num)))
  rw [tzerosOf, hdl, List.length_nil, Nat.sub_zero, JsonNumber.mantissaDigits, if_pos hint, List.nil_append,
    JsonNumber.fracLength]

theorem not_dvd_mantissaOf {n : JsonNumber} (h : mantissaOf n.mantissaDigits ≠ 0) :
    ¬ (10 : Int) ∣ mantissaOf n.mantissaDigits := by
  have hne : n.mantissaDigits.rdropWhile (· == 0) ≠ [] := by
    intro hnil
    apply h
    rw [mantissaOf, hnil]
    rfl
  have hmod := radixValue_rdropWhile_mod_ne_zero 10 (mantissaDigits_lt n) hne
  rw [mantissaOf]
  intro hdvd
  have hnat : 10 ∣ radixValue 10 (n.mantissaDigits.rdropWhile (· == 0)) := by exact_mod_cast hdvd
  exact hmod (Nat.mod_eq_zero_of_dvd hnat)

/-- A mantissa that is not a multiple of ten, times `10 ^ X`, is an integer only
if `X` is not negative. -/
theorem nonneg_of_mul_zpow_eq_int {M a : Int} (hM : ¬ (10 : Int) ∣ M) {X : Int} (h : (M : ℚ) * 10 ^ X = a) :
    0 ≤ X := by
  by_contra hX
  obtain ⟨k, hk⟩ := Int.exists_eq_neg_ofNat (le_of_lt (not_le.mp hX))
  have hk0 : k ≠ 0 := by omega
  rw [hk, zpow_neg, zpow_natCast] at h
  have h10 : (10 : ℚ) ^ k ≠ 0 := pow_ne_zero _ (by norm_num)
  have hMa : (M : ℚ) = a * 10 ^ k := by
    rw [← h]
    field_simp
  have hMa' : M = a * 10 ^ k := by exact_mod_cast hMa
  apply hM
  rw [hMa']
  exact Dvd.dvd.mul_left (dvd_pow_self 10 hk0) a

/-- `evaluate` in terms of the mantissa `M`, the exponent literal and the final
exponent `X`: each guard of the code is one conjunct. -/
theorem evaluate_eq_some_iff_guards (n : JsonNumber) (decimals a : Int) :
    n.evaluate decimals = some a ↔
      mantissaOf n.mantissaDigits < 10 ^ 18 ∧ n.exponentDigits < 10 ^ 18 ∧
        0 ≤ n.exponentValue - n.fracLength + tzerosOf n.mantissaDigits + decimals ∧
        n.exponentValue - n.fracLength + tzerosOf n.mantissaDigits + decimals < 18 ∧
        (mantissaOf n.mantissaDigits).natAbs *
          10 ^ (n.exponentValue - n.fracLength + tzerosOf n.mantissaDigits + decimals).toNat < 10 ^ 18 ∧
        a = (if n.negative then -mantissaOf n.mantissaDigits else mantissaOf n.mantissaDigits) *
          10 ^ (n.exponentValue - n.fracLength + tzerosOf n.mantissaDigits + decimals).toNat := by
  have hX : (if n.exponentNegative then -(n.exponentDigits : Int) else n.exponentDigits) - n.fracLength +
      tzerosOf n.mantissaDigits + decimals = n.exponentValue - n.fracLength + tzerosOf n.mantissaDigits + decimals :=
    rfl
  rw [JsonNumber.evaluate, finalize_eq _ _ _ _ _ _ _ hX]
  by_cases hm : 10 ^ 18 ≤ mantissaOf n.mantissaDigits
  · rw [if_pos hm]
    exact ⟨fun h => (Option.some_ne_none a h.symm).elim, fun h => absurd h.1 (not_lt.mpr hm)⟩
  · rw [if_neg hm]
    by_cases he : 10 ^ 18 ≤ n.exponentDigits
    · rw [if_pos he]
      exact ⟨fun h => (Option.some_ne_none a h.symm).elim, fun h => absurd h.2.1 (not_lt.mpr he)⟩
    · rw [if_neg he]
      split
      · next hc =>
        rw [Option.some_inj]
        exact ⟨fun h => ⟨not_le.mp hm, not_le.mp he, hc.1, hc.2.1, hc.2.2, h.symm⟩, fun h => h.2.2.2.2.2.symm⟩
      · next hc =>
        exact ⟨fun h => (Option.some_ne_none a h.symm).elim, fun h => (hc ⟨h.2.2.1, h.2.2.2.1, h.2.2.2.2.1⟩).elim⟩

/-- Which numbers are accepted, and with which amount: the value times
`10 ^ decimals` is an integer below `10 ^ 18` in absolute value and, for a zero,
the exponent literal plus `decimals` is in `[0, 18)`. -/
theorem evaluate_eq_some_iff (n : JsonNumber) {decimals : Int} (hd0 : 0 ≤ decimals) (hd18 : decimals ≤ 18)
    (hlen : n.render.length < 2 ^ 31) (a : Int) :
    n.evaluate decimals = some a ↔
      n.value * 10 ^ decimals = a ∧ |a| < 10 ^ 18 ∧
        (n.value = 0 → 0 ≤ n.exponentValue + decimals ∧ n.exponentValue + decimals < 18) := by
  have hval := value_mul_pow n decimals
  have hT : tzerosOf n.mantissaDigits ≤ n.mantissaDigits.length := Nat.sub_le _ _
  have hlenP := length_mantissaDigits_le n
  have hfrac := fracLength_le n
  have hev : n.exponentValue = if n.exponentNegative then -(n.exponentDigits : Int) else n.exponentDigits := rfl
  have habs : ∀ x : Int, |x| < 10 ^ 18 ↔ x.natAbs < 10 ^ 18 := by
    intro x
    rw [Int.abs_eq_natAbs]
    exact_mod_cast Iff.rfl
  rw [evaluate_eq_some_iff_guards]
  generalize hX : n.exponentValue - n.fracLength + tzerosOf n.mantissaDigits + decimals = X at hval ⊢
  by_cases hzero : mantissaOf n.mantissaDigits = 0
  · obtain ⟨hT', hv0⟩ := mantissaOf_eq_zero hzero
    have hvalue : n.value = 0 := by
      rw [JsonNumber.value, hv0]
      simp
    have hXe : X = n.exponentValue + decimals := by
      rw [← hX, hT']
      ring
    rw [hzero, hvalue, zero_mul]
    constructor
    · rintro ⟨-, -, hX0, hX18, -, rfl⟩
      refine ⟨by simp, by simp, fun _ => ⟨by omega, by omega⟩⟩
    · rintro ⟨ha, -, hz⟩
      obtain ⟨hz0, hz18⟩ := hz rfl
      have ha0 : a = 0 := by exact_mod_cast ha.symm
      subst ha0
      refine ⟨by norm_num, ?_, by omega, by omega, by simp, by simp⟩
      split at hev <;> omega
  · have hndvd := not_dvd_mantissaOf hzero
    have hpos : 0 < (mantissaOf n.mantissaDigits).natAbs := Int.natAbs_pos.mpr hzero
    have hsigned : ∀ k : Nat, ((if n.negative then -mantissaOf n.mantissaDigits else mantissaOf n.mantissaDigits) *
        10 ^ k : Int) = ((if n.negative then -1 else 1) * mantissaOf n.mantissaDigits * 10 ^ k : ℚ) := by
      intro k
      split <;> push_cast <;> ring
    constructor
    · rintro ⟨-, -, hX0, -, hsize, rfl⟩
      have hz : (10 : ℚ) ^ X = 10 ^ X.toNat := by rw [← zpow_natCast, Int.toNat_of_nonneg hX0]
      refine ⟨by rw [hval, hsigned, hz], ?_, fun h0 => ?_⟩
      · rw [habs, Int.natAbs_mul, Int.natAbs_pow]
        have hs : (if n.negative then -mantissaOf n.mantissaDigits else mantissaOf n.mantissaDigits).natAbs =
            (mantissaOf n.mantissaDigits).natAbs := by
          split
          · exact Int.natAbs_neg _
          · rfl
        rw [hs]
        exact hsize
      · have h10 : (10 : ℚ) ^ decimals ≠ 0 := zpow_ne_zero _ (by norm_num)
        have hM : (mantissaOf n.mantissaDigits : ℚ) ≠ 0 := by exact_mod_cast hzero
        have hP : (10 : ℚ) ^ X ≠ 0 := zpow_ne_zero _ (by norm_num)
        rw [h0, zero_mul] at hval
        have hs : ((if n.negative then -1 else 1) : ℚ) ≠ 0 := by split <;> norm_num
        exact absurd hval.symm (mul_ne_zero (mul_ne_zero hs hM) hP)
    · rintro ⟨ha, hlt, -⟩
      have hsign : ((if n.negative then -mantissaOf n.mantissaDigits else mantissaOf n.mantissaDigits) : ℚ) * 10 ^ X = a := by
        rw [← ha, hval]
        split <;> ring
      have hndvd' : ¬ (10 : Int) ∣ (if n.negative then -mantissaOf n.mantissaDigits else mantissaOf n.mantissaDigits) := by
        split
        · exact fun h => hndvd (Int.dvd_neg.mp h)
        · exact hndvd
      have hX0 : 0 ≤ X := nonneg_of_mul_zpow_eq_int hndvd' (by exact_mod_cast hsign)
      have hz : (10 : ℚ) ^ X = 10 ^ X.toNat := by rw [← zpow_natCast, Int.toNat_of_nonneg hX0]
      have ha' : a = (if n.negative then -mantissaOf n.mantissaDigits else mantissaOf n.mantissaDigits) * 10 ^ X.toNat := by
        rw [hz] at hsign
        exact_mod_cast hsign.symm
      have hsize : (mantissaOf n.mantissaDigits).natAbs * 10 ^ X.toNat < 10 ^ 18 := by
        have h := (habs a).mp hlt
        rw [ha', Int.natAbs_mul, Int.natAbs_pow] at h
        have hs : (if n.negative then -mantissaOf n.mantissaDigits else mantissaOf n.mantissaDigits).natAbs =
            (mantissaOf n.mantissaDigits).natAbs := by
          split
          · exact Int.natAbs_neg _
          · rfl
        rw [hs] at h
        exact h
      have hpow : 10 ^ X.toNat < 10 ^ 18 :=
        Nat.lt_of_le_of_lt (Nat.le_mul_of_pos_left _ hpos) hsize
      have hMlt : (mantissaOf n.mantissaDigits).natAbs < 10 ^ 18 :=
        Nat.lt_of_le_of_lt (Nat.le_mul_of_pos_right _ (Nat.pow_pos (by norm_num))) hsize
      have hX18 : X.toNat < 18 := (Nat.pow_lt_pow_iff_right (by norm_num)).mp hpow
      refine ⟨by omega, ?_, hX0, by omega, hsize, ha'⟩
      by_contra hE
      split at hev <;> omega

/-! ## ParseFixedPoint -/

theorem parseFixedPoint_iff (val : List UInt8) (decimals : Int) (hd0 : 0 ≤ decimals) (hd18 : decimals ≤ 18)
    (hlen : val.length < 2 ^ 31) (a : Int) :
    parseFixedPoint val decimals = some a ↔
      ∃ n : JsonNumber, n.render = val ∧ n.value * 10 ^ decimals = a ∧ |a| < 10 ^ 18 ∧
        (n.value = 0 → 0 ≤ n.exponentValue + decimals ∧ n.exponentValue + decimals < 18) := by
  have hend : val.length % 2 ^ 32 = val.length := Nat.mod_eq_of_lt (by omega)
  have hparse : parseFixedPoint val decimals = parseNumber val decimals := by
    rw [parseFixedPoint, hend, if_neg (by omega), List.take_length]
  rw [hparse]
  constructor
  · intro h
    obtain ⟨n, rfl⟩ := exists_render_of_parseNumber h
    rw [parseNumber_render] at h
    exact ⟨n, rfl, (evaluate_eq_some_iff n hd0 hd18 hlen a).mp h⟩
  · rintro ⟨n, rfl, hspec⟩
    rw [parseNumber_render]
    exact (evaluate_eq_some_iff n hd0 hd18 hlen a).mpr hspec

theorem parseFixedPoint_iff_tenth :
    ∃ n : JsonNumber, n.render = asciiBytes "-0.1" ∧ n.value * 10 ^ (8 : Int) = (-10000000 : Int) ∧
      |(-10000000 : Int)| < 10 ^ 18 ∧
      (n.value = 0 → 0 ≤ n.exponentValue + 8 ∧ n.exponentValue + 8 < 18) :=
  (parseFixedPoint_iff (asciiBytes "-0.1") 8 (by norm_num) (by norm_num) (by decide) (-10000000)).mp (by decide)

/-- The number `0e-1` has the value zero, which fits, but its exponent is checked
as if the zero were a mantissa digit of its own: it is refused. -/
theorem parseFixedPoint_rejects_zero_exponent :
    parseFixedPoint (asciiBytes "0e-1") 0 = none ∧
      ∃ n : JsonNumber, n.render = asciiBytes "0e-1" ∧ n.value = 0 := by
  refine ⟨by decide, ⟨false, [0], none, some ⟨false, some true, [1], by decide, by decide⟩, by decide, Or.inl rfl,
    by simp, by simp⟩, by decide, ?_⟩
  simp [JsonNumber.value, radixValue_cons]

end Membercoin.FixedPoint
