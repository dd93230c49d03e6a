import Membercoin.Encoding.FixedPoint
import Membercoin.Encoding.Base58

/-!
# Amounts as text (utilmoneystr.cpp)

`FormatMoney` prints an amount of satoshis as `"%d.%08d"` of its coins and
its remainder, then trims the trailing zeros of the fraction down to two
digits: its loop runs back over `'0'`s while the character two places to the
left is a digit, and the `'.'` stops it at the second digit of the fraction.
`ParseMoney` reads leading spaces, the digits of the whole part, and after a
`'.'` at most eight digits of the fraction, each worth a tenth of the one
before; then only spaces may follow. It refuses a whole part of more than
ten digits, which keeps `nWhole * COIN` below `2 ^ 63`.

Strings are C strings: lists of bytes, ending at the end of the list or at
the first `0`. `isspace` and `isdigit` are those of the C locale.

The two agree on every amount of fewer than eleven digits of coins
(`parseMoney_formatMoney`). The proof has three ingredients: `%d` and `%08d`
print the digits of their numbers (`printD_eq`, `print08d_eq`), the trimming
loop removes only `'0'`s and never reaches the `'.'` (`trimLoop_spec`), and
the loops of `ParseMoney` read such digits back (`wholeLoop_digitChars`,
`fractionLoop_digitChars`).
-/

namespace Membercoin.Money

open ByteCodec Radix FixedPoint

/-- `COIN`: the satoshis of one coin. -/
def coin : Int := 100000000

/-- `CENT`. -/
def cent : Int := 1000000

/-! ## FormatMoney -/

/-- `%d` of a number that is not negative. -/
def printD (x : Nat) : List UInt8 := (Nat.toDigits 10 x).map asciiByte

/-- `%08d` of a number that is not negative: its digits after as many `'0'`s
as make eight. -/
def print08d (x : Nat) : List UInt8 :=
  List.replicate (8 - (Nat.toDigits 10 x).length) (asciiByte '0') ++ printD x

/-- The trimming loop of `FormatMoney` at position `i`, `nTrim` characters
trimmed so far: it moves left over `'0'`s that have a digit two places to
their left. Below position 2 that digit would be read before the start of
the string, which is undefined. -/
def trimLoop (str : List UInt8) : Nat → Nat → Option Nat
  | i + 2, nTrim =>
    if str.getD (i + 2) 0 == asciiByte '0' && isDigit (str.getD i 0) then trimLoop str (i + 1) (nTrim + 1)
    else some nTrim
  | i, nTrim => if str.getD i 0 == asciiByte '0' then none else some nTrim

/-- `FormatMoney`. Negating `INT64_MIN` overflows; that is `none`. -/
def formatMoney (n : Int) : Option (List UInt8) := do
  let nAbs ← if n > 0 then some n else if n = -2 ^ 63 then none else some (-n)
  let str := printD (nAbs / coin).toNat ++ [asciiByte '.'] ++ print08d (nAbs % coin).toNat
  let nTrim ← trimLoop str (str.length - 1) 0
  let str := str.take (str.length - nTrim)
  pure (if n < 0 then asciiByte '-' :: str else str)

example : formatMoney 0 = some (asciiBytes "0.00") := by decide
example : formatMoney (coin / 10000 * 123456789) = some (asciiBytes "12345.6789") := by decide
example : formatMoney (-coin) = some (asciiBytes "-1.00") := by decide
example : formatMoney (coin / 100000000) = some (asciiBytes "0.00000001") := by decide

/-! ## ParseMoney -/

/-- The digits after `'.'`: while a digit follows and `nMult` is positive,
`nUnits` grows by `nMult` times the digit and `nMult` drops to a tenth. -/
def fractionLoop : List UInt8 → Int → Int → Int × List UInt8
  | c :: rest, nMult, nUnits =>
    if isDigit c && nMult > 0 then fractionLoop rest (nMult / 10) (nUnits + nMult * ((c.toNat : Int) - 48))
    else (nUnits, c :: rest)
  | [], _, nUnits => (nUnits, [])

/-- The first loop of `ParseMoney`: the digits of the whole part go to
`strWhole`. It ends at the terminator, at a space, or after the fraction
that follows a `'.'`, and fails at any other character. -/
def wholeLoop : List UInt8 → List UInt8 → Option (List UInt8 × Int × List UInt8)
  | [], strWhole => some (strWhole, 0, [])
  | c :: rest, strWhole =>
    if c = 0 then some (strWhole, 0, c :: rest)
    else if c = asciiByte '.' then
      let r := fractionLoop rest (cent * 10) 0
      some (strWhole, r.1, r.2)
    else if Base58.isspace c then some (strWhole, 0, c :: rest)
    else if !isDigit c then none
    else wholeLoop rest (strWhole ++ [c])

/-- The second loop of `ParseMoney`: nothing but spaces up to the
terminator. -/
def onlySpaces : List UInt8 → Bool
  | [] => true
  | c :: rest => c == 0 || (Base58.isspace c && onlySpaces rest)

/-- `atoi64` (`strtoll` in base 10) on the strings `ParseMoney` passes it:
digits only, at most ten of them, so read whole and far from saturation. -/
def atoi64 (str : List UInt8) : Int := radixValue 10 (str.map fun c => c.toNat - 48)

/-- `ParseMoney(const char *)`, `none` for `return false`. -/
def parseMoney (psz : List UInt8) : Option Int :=
  match wholeLoop (psz.dropWhile Base58.isspace) [] with
  | none => none
  | some (strWhole, nUnits, rest) =>
    if !onlySpaces rest then none
    else if strWhole.length > 10 then none
    else if nUnits < 0 || nUnits > coin then none
    else some (atoi64 strWhole * coin + nUnits)

example : parseMoney (asciiBytes "0.0") = some 0 := by decide
example : parseMoney (asciiBytes "12345.6789") = some (coin / 10000 * 123456789) := by decide
example : parseMoney (asciiBytes "1") = some coin := by decide
example : parseMoney (asciiBytes "92233720368.54775808") = none := by decide
example : parseMoney (asciiBytes "-1") = none := by decide

/-! ## The digits `%d` and `%08d` print -/

theorem asciiByte_digitChar {d : Nat} (hd : d < 10) : asciiByte (Nat.digitChar d) = digitChar d := by
  interval_cases d <;> rfl

/-- A digit is neither the terminator, nor `'.'`, nor a space. -/
theorem digitChar_plain : ∀ d < 10,
    digitChar d ≠ 0 ∧ digitChar d ≠ asciiByte '.' ∧ Base58.isspace (digitChar d) = false := by
  decide

/-- `%d` prints the digits of its number, most significant first. -/
theorem printD_eq (n : Nat) :
    ∃ ds, (∀ d ∈ ds, d < 10) ∧ ds ≠ [] ∧ radixValue 10 ds = n ∧ printD n = digitChars ds := by
  induction n using Nat.strong_induction_on with
  | _ n ih =>
    rw [printD, Nat.toDigits_eq_if (by decide)]
    split_ifs with hlt
    · refine ⟨[n], by simpa using hlt, by simp, by simp [radixValue], ?_⟩
      simp [digitChars, asciiByte_digitChar hlt]
    · obtain ⟨ds, hds, hne, hval, hprint⟩ := ih (n / 10) (by omega)
      have hprint' : (Nat.toDigits 10 (n / 10)).map asciiByte = digitChars ds := hprint
      refine ⟨ds ++ [n % 10], ?_, by simp, ?_, ?_⟩
      · intro d hd
        rcases List.mem_append.mp hd with h | h
        · exact hds d h
        · rw [List.mem_singleton.mp h]
          omega
      · rw [radixValue_append_singleton, hval]
        omega
      · rw [List.map_append, hprint']
        simp [digitChars, asciiByte_digitChar (Nat.mod_lt n (by decide) : n % 10 < 10)]

theorem length_printD (n : Nat) : (printD n).length = (Nat.toDigits 10 n).length := List.length_map _

/-- `%08d` of a number below `10 ^ 8` prints eight digits of it. -/
theorem print08d_eq {x : Nat} (hx : x < 10 ^ 8) :
    ∃ rs, (∀ d ∈ rs, d < 10) ∧ rs.length = 8 ∧ radixValue 10 rs = x ∧ print08d x = digitChars rs := by
  obtain ⟨ds, hds, -, hval, hprint⟩ := printD_eq x
  have hlen : ds.length = (Nat.toDigits 10 x).length := by
    rw [← length_printD, hprint, digitChars, List.length_map]
  have hshort : (Nat.toDigits 10 x).length ≤ 8 := (Nat.length_toDigits_le_iff (by decide) (by decide)).mpr hx
  refine ⟨List.replicate (8 - ds.length) 0 ++ ds, ?_, by simp; omega, ?_, ?_⟩
  · intro d hd
    rcases List.mem_append.mp hd with h | h
    · rw [(List.mem_replicate.mp h).2]
      decide
    · exact hds d h
  · rw [radixValue_append, radixValue_replicate_zero, hval, Nat.zero_mul, Nat.zero_add]
  · have hzero : digitChar 0 = asciiByte '0' := by decide
    rw [print08d, hprint, hlen]
    simp only [digitChars, List.map_append, List.map_replicate, hzero]

/-! ## The trimming loop -/

/-- The trimming loop stops at the latest at a position `k ≥ 2` that holds
no `'0'` or has no digit two places to its left. Started at `i ≥ k`, it
trims `m` characters, all `'0'`, and stays above `k`. -/
theorem trimLoop_spec (str : List UInt8) (k : Nat) (hk : 2 ≤ k)
    (hstop : ¬ (str.getD k 0 = asciiByte '0' ∧ isDigit (str.getD (k - 2) 0) = true)) :
    ∀ i nTrim, k ≤ i → ∃ m, trimLoop str i nTrim = some (nTrim + m) ∧ m ≤ i - k ∧
      ∀ j, i - m < j → j ≤ i → str.getD j 0 = asciiByte '0' := by
  intro i
  induction i with
  | zero =>
    intro nTrim hki
    omega
  | succ i ih =>
    intro nTrim hki
    cases i with
    | zero => omega
    | succ i =>
      rw [trimLoop]
      by_cases hP : str.getD (i + 2) 0 = asciiByte '0' ∧ isDigit (str.getD i 0) = true
      · have hne : k ≠ i + 2 := by
          intro h
          apply hstop
          subst h
          rw [Nat.add_sub_cancel]
          exact hP
        obtain ⟨m, hm, hmle, hzeros⟩ := ih (nTrim + 1) (by omega)
        refine ⟨m + 1, ?_, by omega, ?_⟩
        · rw [if_pos (by rw [hP.1, hP.2, beq_self_eq_true]; rfl), hm, Nat.add_assoc, Nat.add_comm 1 m]
        · intro j hj₁ hj₂
          by_cases hj : j = i + 2
          · rw [hj]
            exact hP.1
          · exact hzeros j (by omega) (by omega)
      · refine ⟨0, ?_, by omega, fun j hj₁ hj₂ => by omega⟩
        have hcond : (str.getD (i + 2) 0 == asciiByte '0' && isDigit (str.getD i 0)) = false := by
          simpa [Bool.and_eq_true, beq_iff_eq] using hP
        rw [if_neg (by rw [hcond]; decide)]
        rfl

/-! ## The loops of ParseMoney -/

theorem toInt_digitChar {d : Nat} (hd : d < 10) : ((digitChar d).toNat : Int) - 48 = d := by
  rw [toNat_digitChar hd]
  omega

/-- Digits after the `'.'`: each is worth a tenth of the one before, the
first `10 ^ e`, and none is left over while there are at most `e + 1`. -/
theorem fractionLoop_digitChars (fs : List Nat) (hfs : ∀ d ∈ fs, d < 10) :
    ∀ (e : Nat) (nUnits : Int), fs.length ≤ e + 1 →
      fractionLoop (digitChars fs) (10 ^ e) nUnits =
        (nUnits + (radixValue 10 fs : Int) * 10 ^ (e + 1 - fs.length), []) := by
  induction fs with
  | nil =>
    intro e nUnits _
    simp [digitChars, fractionLoop]
  | cons d fs ih =>
    intro e nUnits hlen
    have hd : d < 10 := hfs d List.mem_cons_self
    have hpos : (10 : Int) ^ e > 0 := by positivity
    rw [digitChars, List.map_cons, fractionLoop, if_pos (by simp [isDigit_digitChar hd, hpos]),
      toInt_digitChar hd]
    cases e with
    | zero =>
      have hnil : fs = [] := by
        rw [List.length_cons] at hlen
        exact List.eq_nil_of_length_eq_zero (by omega)
      subst hnil
      simp [fractionLoop, radixValue]
    | succ e =>
      have hmult : (10 : Int) ^ (e + 1) / 10 = 10 ^ e := by
        rw [pow_succ, Int.mul_ediv_cancel _ (by decide)]
      have hsplit : (10 : Int) ^ (e + 1) = 10 ^ fs.length * 10 ^ (e + 1 - fs.length) := by
        rw [← pow_add]
        congr 1
        simp at hlen
        omega
      rw [hmult, ← digitChars, ih (fun x hx => hfs x (List.mem_cons_of_mem d hx)) e _ (by simp at hlen; omega),
        radixValue_cons, List.length_cons, show e + 1 + 1 - (fs.length + 1) = e + 1 - fs.length by omega]
      push_cast
      rw [hsplit]
      congr 1
      ring

/-- The whole part read digit by digit, up to the `'.'`. -/
theorem wholeLoop_digitChars (ds : List Nat) (hds : ∀ d ∈ ds, d < 10) (rest : List UInt8) :
    ∀ strWhole, wholeLoop (digitChars ds ++ asciiByte '.' :: rest) strWhole =
      some (strWhole ++ digitChars ds, (fractionLoop rest (cent * 10) 0).1,
        (fractionLoop rest (cent * 10) 0).2) := by
  induction ds with
  | nil =>
    intro strWhole
    have hdot : asciiByte '.' ≠ 0 := by decide
    simp [digitChars, wholeLoop, hdot]
  | cons d ds ih =>
    intro strWhole
    have hd : d < 10 := hds d List.mem_cons_self
    obtain ⟨h0, hdot, hspace⟩ := digitChar_plain d hd
    rw [digitChars, List.map_cons, List.cons_append, wholeLoop, if_neg h0, if_neg hdot, if_neg (by simp [hspace]),
      if_neg (by simp [isDigit_digitChar hd]), ← digitChars, ih (fun x hx => hds x (List.mem_cons_of_mem d hx))]
    simp [digitChars]

theorem atoi64_digitChars {ds : List Nat} (hds : ∀ d ∈ ds, d < 10) : atoi64 (digitChars ds) = radixValue 10 ds := by
  rw [atoi64, digitChars, List.map_map]
  congr 2
  conv_rhs => rw [← List.map_id ds]
  apply List.map_congr_left
  intro d hd
  simp [toNat_digitChar (hds d hd)]

/-- `ParseMoney` of the digits of a whole part, a `'.'` and at most eight
digits of a fraction. -/
theorem parseMoney_digits {ds fs : List Nat} (hds : ∀ d ∈ ds, d < 10) (hne : ds ≠ [])
    (hfs : ∀ d ∈ fs, d < 10) (hdlen : ds.length ≤ 10) (hflen : fs.length ≤ 8) :
    parseMoney (digitChars ds ++ asciiByte '.' :: digitChars fs) =
      some (radixValue 10 ds * coin + radixValue 10 fs * 10 ^ (8 - fs.length)) := by
  have hspaces : (digitChars ds ++ asciiByte '.' :: digitChars fs).dropWhile Base58.isspace =
      digitChars ds ++ asciiByte '.' :: digitChars fs := by
    obtain ⟨d, ds', rfl⟩ := List.exists_cons_of_ne_nil hne
    exact List.dropWhile_cons_of_neg (by simp [(digitChar_plain d (hds d List.mem_cons_self)).2.2])
  have hfrac : fractionLoop (digitChars fs) (cent * 10) 0 =
      ((radixValue 10 fs : Int) * 10 ^ (8 - fs.length), []) := by
    rw [show cent * 10 = 10 ^ 7 from rfl, fractionLoop_digitChars fs hfs 7 0 (by omega), Int.zero_add]
  have hunits : (radixValue 10 fs : Int) * 10 ^ (8 - fs.length) < 10 ^ 8 := by
    have hlt := radixValue_lt (by decide) hfs
    have hmul : radixValue 10 fs * 10 ^ (8 - fs.length) < 10 ^ 8 := by
      calc radixValue 10 fs * 10 ^ (8 - fs.length) < 10 ^ fs.length * 10 ^ (8 - fs.length) :=
            Nat.mul_lt_mul_of_pos_right hlt (by positivity)
        _ = 10 ^ 8 := by rw [← pow_add]; congr 1; omega
    exact_mod_cast hmul
  rw [parseMoney, hspaces, wholeLoop_digitChars ds hds _ [], hfrac, List.nil_append]
  simp only [onlySpaces, Bool.not_true, Bool.false_eq_true, if_false, digitChars, List.length_map]
  rw [if_neg (by omega), if_neg (by simp [coin]; omega), ← digitChars, atoi64_digitChars hds]

/-! ## The round trip -/

/-- `FormatMoney` of an amount that is not negative, before the trimmed
string is taken apart. -/
theorem formatMoney_of_nonneg {n : Int} (h0 : 0 ≤ n) :
    formatMoney n =
      (let str := printD (n / coin).toNat ++ [asciiByte '.'] ++ print08d (n % coin).toNat
       (trimLoop str (str.length - 1) 0).map fun nTrim => str.take (str.length - nTrim)) := by
  unfold formatMoney
  by_cases hpos : n > 0
  · simp only [if_pos hpos, Option.bind_eq_bind, Option.bind_some, if_neg (not_lt.mpr h0)]
    cases trimLoop _ _ 0 <;> rfl
  · have hzero : n = 0 := by omega
    subst hzero
    simp only [if_neg hpos, if_neg (show (0 : Int) ≠ -2 ^ 63 by decide), Int.neg_zero, Option.bind_eq_bind,
      Option.bind_some]
    cases trimLoop _ _ 0 <;> rfl

theorem getD_digitChars {rs : List Nat} {t : Nat} (ht : t < rs.length) :
    (digitChars rs).getD t 0 = digitChar (rs.getD t 0) := by
  rw [List.getD_eq_getElem _ _ (by simpa [digitChars] using ht), List.getD_eq_getElem _ _ ht]
  simp [digitChars]

/-- The trimmed digits of the fraction: a run of `'0'`s at the end of eight
digits leaves the digits before it, worth as much once scaled back. -/
theorem eq_take_append_replicate {rs : List Nat} {m : Nat} (hlen : rs.length = 8) (hm : m ≤ 8)
    (hzeros : ∀ t, 8 - m ≤ t → t < 8 → rs.getD t 0 = 0) :
    rs = rs.take (8 - m) ++ List.replicate m 0 := by
  have hdrop : rs.drop (8 - m) = List.replicate m 0 := by
    apply List.ext_getElem (by simp [hlen]; omega)
    intro t h₁ h₂
    rw [List.getElem_drop, List.getElem_replicate]
    have hz := hzeros (8 - m + t) (by omega) (by simp at h₁; omega)
    rwa [List.getD_eq_getElem _ _ (by simp at h₁; omega)] at hz
  conv_lhs => rw [← List.take_append_drop (8 - m) rs, hdrop]

/-- `FormatMoney` of an amount of fewer than eleven digits of coins: the
digits of its coins, a `'.'`, and the digits of its remainder, less the
trailing zeros it trims. -/
theorem formatMoney_digits {n : Int} (h0 : 0 ≤ n) (hn : n < 10 ^ 10 * coin) :
    ∃ ds fs, formatMoney n = some (digitChars ds ++ asciiByte '.' :: digitChars fs) ∧
      (∀ d ∈ ds, d < 10) ∧ ds ≠ [] ∧ ds.length ≤ 10 ∧ radixValue 10 ds = (n / coin).toNat ∧
      (∀ d ∈ fs, d < 10) ∧ fs.length ≤ 8 ∧ radixValue 10 fs * 10 ^ (8 - fs.length) = (n % coin).toNat := by
  have hq : (n / coin).toNat < 10 ^ 10 := by
    simp only [coin] at hn ⊢
    omega
  have hr : (n % coin).toNat < 10 ^ 8 := by
    simp only [coin]
    omega
  obtain ⟨ds, hds, hne, hval, hprint⟩ := printD_eq (n / coin).toNat
  obtain ⟨rs, hrs, hrlen, hrval, hrprint⟩ := print08d_eq hr
  have hdlen : ds.length ≤ 10 := by
    have hlen := length_printD (n / coin).toNat
    rw [hprint, digitChars, List.length_map] at hlen
    rw [hlen]
    exact (Nat.length_toDigits_le_iff (by decide) (by decide)).mpr hq
  set str := digitChars ds ++ [asciiByte '.'] ++ digitChars rs with hstr
  have hlen : str.length = ds.length + 9 := by
    simp [str, digitChars, hrlen]
  have hfrac : ∀ t, str.getD (ds.length + 1 + t) 0 = (digitChars rs).getD t 0 := by
    intro t
    rw [hstr, List.getD_append_right _ _ _ _ (by simp [digitChars])]
    simp [digitChars]
  have hdot : str.getD ds.length 0 = asciiByte '.' := by
    rw [hstr, List.append_assoc, List.getD_append_right _ _ _ _ (by simp [digitChars])]
    simp [digitChars]
  have hstop : ¬ (str.getD (ds.length + 2) 0 = asciiByte '0' ∧
      isDigit (str.getD (ds.length + 2 - 2) 0) = true) := by
    rw [Nat.add_sub_cancel, hdot]
    exact fun h => absurd h.2 (by decide)
  obtain ⟨m, htrim, hm, hzeros⟩ := trimLoop_spec str (ds.length + 2) (by omega) hstop (ds.length + 8) 0 (by omega)
  have hrzeros : ∀ t, 8 - m ≤ t → t < 8 → rs.getD t 0 = 0 := by
    intro t ht₁ ht₂
    have hz := hzeros (ds.length + 1 + t) (by omega) (by omega)
    rw [hfrac, getD_digitChars (by omega)] at hz
    exact (digitChar_eq_zero_iff (by
      rw [List.getD_eq_getElem _ _ (by omega)]
      exact hrs _ (List.getElem_mem _))).mp hz
  have hsplit := eq_take_append_replicate hrlen (by omega) hrzeros
  refine ⟨ds, rs.take (8 - m), ?_, hds, hne, hdlen, hval, fun d hd => hrs d (List.mem_of_mem_take hd),
    by simp, ?_⟩
  · rw [formatMoney_of_nonneg h0, hprint, hrprint]
    dsimp only
    rw [← hstr, show str.length - 1 = ds.length + 8 by omega, htrim, Nat.zero_add, Option.map_some]
    have hzero : digitChar 0 = asciiByte '0' := by decide
    have hstr' : str = (digitChars ds ++ asciiByte '.' :: digitChars (rs.take (8 - m))) ++
        List.replicate m (asciiByte '0') := by
      rw [hstr]
      conv_lhs => rw [hsplit]
      simp [digitChars, hzero]
    congr 1
    rw [hstr']
    apply List.take_left'
    simp [digitChars, hrlen]
    omega
  · have hflen : (rs.take (8 - m)).length = 8 - m := by simp [hrlen]
    rw [hflen, show 8 - (8 - m) = m by omega, ← hrval, hsplit, radixValue_append, radixValue_replicate_zero,
      List.length_replicate, Nat.add_zero, List.take_append_of_le_length (by simp [hrlen]),
      List.take_of_length_le (by simp [hrlen])]

/-- `ParseMoney` reads back what `FormatMoney` prints, for every amount of
fewer than eleven digits of coins. -/
theorem parseMoney_formatMoney (n : Int) (h0 : 0 ≤ n) (hn : n < 10 ^ 10 * coin) :
    ∃ s, formatMoney n = some s ∧ parseMoney s = some n := by
  obtain ⟨ds, fs, hformat, hds, hne, hdlen, hval, hfs, hflen, hfval⟩ := formatMoney_digits h0 hn
  refine ⟨_, hformat, ?_⟩
  rw [parseMoney_digits hds hne hfs hdlen hflen, hval]
  have hfval' : (radixValue 10 fs : Int) * 10 ^ (8 - fs.length) = ((n % coin).toNat : Int) := by
    exact_mod_cast hfval
  rw [hfval']
  congr 1
  simp only [coin]
  omega

theorem parseMoney_formatMoney_amount :
    ∃ s, formatMoney 1234567800 = some s ∧ parseMoney s = some 1234567800 :=
  parseMoney_formatMoney 1234567800 (by decide) (by decide)

end Membercoin.Money
