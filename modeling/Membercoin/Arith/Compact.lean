import Membercoin.Lib.BinaryCounter

/-!
# The compact form of a target (arith_uint256.cpp)

`GetCompact` writes a 256-bit number as one exponent byte, the byte length, and
a 23-bit mantissa, the top three bytes; when the top bit of those is set (it
would read as the sign) the mantissa drops a byte and the exponent grows by
one. `SetCompact` reads the mantissa back at its exponent.

The model keeps the C++ operations on `Nat`: `% 2 ^ 32` where a `uint64_t` is
stored in a `uint32_t`, and `ArithUint256.ofNat` for the 256 bits an
`arith_uint256` keeps. Above it, `scaleToExponent x e` is the mantissa of `x`
for the exponent `e`, and `compactParts` the pair that `GetCompact` writes
(`getCompact_eq`). A nonzero number has one exponent whose mantissa lies in
`[2 ^ 15, 2 ^ 23)` (`exponent_unique`), and that is the one `GetCompact`
picks (`compactParts_spec`), so clearing the bits below the mantissa changes
nothing `GetCompact` writes (`compactParts_truncate`).
-/

namespace Membercoin
/-- An `arith_uint256`: a number below `2 ^ 256`. -/
structure ArithUint256 where
  val : Nat
  lt : val < 2 ^ 256

/-- Assigning to an `arith_uint256` keeps the low 256 bits; so does `<<=`. -/
def ArithUint256.ofNat (n : Nat) : ArithUint256 := ⟨n % 2 ^ 256, Nat.mod_lt _ (by positivity)⟩

/-- `base_uint::bits`: one more than the position of the highest set bit, or
zero. -/
def bits (x : ArithUint256) : Nat := x.val.size

/-- `arith_uint256::SetCompact`: the number, then the `pfNegative` and
`pfOverflow` flags. -/
def setCompact (nCompact : Nat) : ArithUint256 × Bool × Bool :=
  let nSize := nCompact >>> 24
  let nWord := nCompact &&& 0x007fffff
  -- below four bytes the mantissa loses its low bytes, and the flags see the shifted word
  let nWord := if nSize ≤ 3 then nWord >>> (8 * (3 - nSize)) else nWord
  let value := if nSize ≤ 3 then ArithUint256.ofNat nWord else ArithUint256.ofNat (nWord <<< (8 * (nSize - 3)))
  (value, nWord ≠ 0 && nCompact &&& 0x00800000 ≠ 0,
    nWord ≠ 0 && (nSize > 34 || (nWord > 0xff && nSize > 33) || (nWord > 0xffff && nSize > 32)))

/-- `arith_uint256::GetCompact`, `none` where an `assert` fails. -/
def getCompact (x : ArithUint256) (fNegative : Bool) : Option Nat :=
  let nSize := (bits x + 7) / 8
  let nCompact :=
    if nSize ≤ 3 then ((x.val % 2 ^ 64) <<< (8 * (3 - nSize))) % 2 ^ 32
    else (x.val >>> (8 * (nSize - 3))) % 2 ^ 64 % 2 ^ 32
  -- a mantissa with its sign bit set moves one byte up
  let (nCompact, nSize) :=
    if nCompact &&& 0x00800000 ≠ 0 then (nCompact >>> 8, nSize + 1) else (nCompact, nSize)
  if nCompact > 0x007fffff then none
  else if nSize ≥ 256 then none
  else
    let nCompact := nCompact ||| (nSize <<< 24)
    some (nCompact ||| if fNegative && nCompact &&& 0x007fffff ≠ 0 then 0x00800000 else 0)


/-! ## The fields of a compact number -/

/-- The sign bit of a mantissa below `2 ^ 24`. -/
theorem and_0x800000_ne_zero_iff {m : Nat} (hm : m < 2 ^ 24) : m &&& 0x00800000 ≠ 0 ↔ 2 ^ 23 ≤ m := by
  have h := BinaryCounter.and_one_shiftLeft_eq_zero_iff m 23
  rw [show (1 : Nat) <<< 23 = 0x00800000 from rfl] at h
  rw [Ne, h]
  omega

/-- A mantissa below `2 ^ 23` and an exponent byte, packed as `GetCompact`
packs them. -/
theorem or_shiftLeft_eq_add {m : Nat} (hm : m < 2 ^ 24) (e : Nat) : m ||| e <<< 24 = m + e * 2 ^ 24 := by
  rw [Nat.lor_comm, ← Nat.shiftLeft_add_eq_or_of_lt hm, Nat.shiftLeft_eq, Nat.add_comm]

theorem encode_shiftRight {m : Nat} (hm : m < 2 ^ 24) (e : Nat) : (m + e * 2 ^ 24) >>> 24 = e := by
  rw [Nat.shiftRight_eq_div_pow]
  omega

theorem encode_and_0x7fffff {m : Nat} (hm : m < 2 ^ 23) (e : Nat) : (m + e * 2 ^ 24) &&& 0x007fffff = m := by
  rw [show (0x007fffff : Nat) = 2 ^ 23 - 1 from rfl, Nat.and_two_pow_sub_one_eq_mod]
  omega

theorem encode_and_0x800000 {m : Nat} (hm : m < 2 ^ 23) (e : Nat) : (m + e * 2 ^ 24) &&& 0x00800000 = 0 := by
  have h := BinaryCounter.and_one_shiftLeft_eq_zero_iff (m + e * 2 ^ 24) 23
  rw [show (1 : Nat) <<< 23 = 0x00800000 from rfl] at h
  rw [h]
  omega

/-! ## `GetCompact` -/

/-- The number of bytes of `x`, the `nSize` of `GetCompact`. -/
def byteLength (x : Nat) : Nat := (x.size + 7) / 8

/-- The mantissa of `x` for the exponent `e`: `x` divided by `256 ^ (e - 3)`,
or multiplied by `256 ^ (3 - e)`. -/
def scaleToExponent (x e : Nat) : Nat :=
  if e ≤ 3 then x * 2 ^ (8 * (3 - e)) else x / 2 ^ (8 * (e - 3))

/-- The top three bytes of `x`, moved up when `x` has fewer. -/
def topBytes (x : Nat) : Nat := scaleToExponent x (byteLength x)

/-- The exponent and mantissa that `GetCompact` writes: the byte length and
the top three bytes, or one byte more and the top two when the top three have
the sign bit set. -/
def compactParts (x : Nat) : Nat × Nat :=
  if 2 ^ 23 ≤ topBytes x then (byteLength x + 1, topBytes x / 2 ^ 8) else (byteLength x, topBytes x)

theorem lt_two_pow_byteLength (x : Nat) : x < 2 ^ (8 * byteLength x) :=
  lt_of_lt_of_le (Nat.lt_size_self x) (Nat.pow_le_pow_right (by decide) (by unfold byteLength; omega))

theorem topBytes_lt (x : Nat) : topBytes x < 2 ^ 24 := by
  have hx := lt_two_pow_byteLength x
  unfold topBytes scaleToExponent
  split_ifs with hn
  · calc x * 2 ^ (8 * (3 - byteLength x))
        < 2 ^ (8 * byteLength x) * 2 ^ (8 * (3 - byteLength x)) :=
          Nat.mul_lt_mul_of_pos_right hx (Nat.two_pow_pos _)
      _ = 2 ^ 24 := by rw [← pow_add]; congr 1; omega
  · rw [Nat.div_lt_iff_lt_mul (Nat.two_pow_pos _), ← pow_add]
    calc x < 2 ^ (8 * byteLength x) := hx
      _ = 2 ^ (24 + 8 * (byteLength x - 3)) := by congr 1; omega

theorem compactParts_mantissa_lt (x : Nat) : (compactParts x).2 < 2 ^ 23 := by
  have hm := topBytes_lt x
  unfold compactParts
  split_ifs with hsign
  · rw [Nat.div_lt_iff_lt_mul (by decide)]
    omega
  · omega

theorem compactParts_exponent_le {x : Nat} (hx : x < 2 ^ 256) : (compactParts x).1 ≤ 33 := by
  have hsize : x.size ≤ 256 := Nat.size_le.mpr hx
  unfold compactParts byteLength
  split_ifs <;> omega

theorem getCompact_eq (x : ArithUint256) (fNegative : Bool) :
    getCompact x fNegative = some ((compactParts x.val).2 + (compactParts x.val).1 * 2 ^ 24 |||
      if fNegative && (compactParts x.val).2 ≠ 0 then 0x00800000 else 0) := by
  have hx := lt_two_pow_byteLength x.val
  have htop : (if byteLength x.val ≤ 3 then ((x.val % 2 ^ 64) <<< (8 * (3 - byteLength x.val))) % 2 ^ 32
      else (x.val >>> (8 * (byteLength x.val - 3))) % 2 ^ 64 % 2 ^ 32) = topBytes x.val := by
    have hlt := topBytes_lt x.val
    unfold topBytes scaleToExponent at hlt ⊢
    split_ifs at hlt ⊢ with hn
    · have hsmall : x.val < 2 ^ 64 := lt_of_lt_of_le hx (Nat.pow_le_pow_right (by decide) (by omega))
      rw [Nat.mod_eq_of_lt hsmall, Nat.shiftLeft_eq, Nat.mod_eq_of_lt (by omega)]
    · rw [Nat.shiftRight_eq_div_pow, Nat.mod_eq_of_lt (show x.val / 2 ^ (8 * (byteLength x.val - 3)) < 2 ^ 64 by omega),
        Nat.mod_eq_of_lt (show x.val / 2 ^ (8 * (byteLength x.val - 3)) < 2 ^ 32 by omega)]
  have hm := compactParts_mantissa_lt x.val
  have he := compactParts_exponent_le x.lt
  unfold getCompact bits
  rw [show (x.val.size + 7) / 8 = byteLength x.val from rfl]
  simp only [htop]
  unfold compactParts at hm he ⊢
  by_cases hsign : 2 ^ 23 ≤ topBytes x.val
  · rw [if_pos ((and_0x800000_ne_zero_iff (topBytes_lt x.val)).mpr hsign)]
    simp only [if_pos hsign] at hm he ⊢
    rw [if_neg (by rw [Nat.shiftRight_eq_div_pow]; omega), if_neg (by omega), Nat.shiftRight_eq_div_pow,
      or_shiftLeft_eq_add (by omega), encode_and_0x7fffff hm]
  · rw [if_neg (fun h => hsign ((and_0x800000_ne_zero_iff (topBytes_lt x.val)).mp h))]
    simp only [if_neg hsign] at hm he ⊢
    rw [if_neg (by omega), if_neg (by omega), or_shiftLeft_eq_add (by omega), encode_and_0x7fffff hm]

/-! ## The normal form -/

/-- One exponent up, the mantissa loses a byte. -/
theorem scaleToExponent_succ (x e : Nat) : scaleToExponent x (e + 1) = scaleToExponent x e / 2 ^ 8 := by
  unfold scaleToExponent
  split_ifs with h1 h2 h2
  · have hpow : 2 ^ (8 * (3 - e)) = 2 ^ (8 * (3 - (e + 1))) * 2 ^ 8 := by rw [← pow_add]; congr 1; omega
    rw [hpow, ← Nat.mul_assoc, Nat.mul_div_cancel _ (by decide)]
  · omega
  · obtain rfl : e = 3 := by omega
    simp
  · rw [Nat.div_div_eq_div_mul, ← pow_add]
    congr 2
    omega

theorem scaleToExponent_add (x e k : Nat) : scaleToExponent x (e + k) = scaleToExponent x e / 2 ^ (8 * k) := by
  induction k with
  | zero => simp
  | succ k ih =>
    rw [← Nat.add_assoc, scaleToExponent_succ, ih, Nat.div_div_eq_div_mul, ← pow_add, Nat.mul_succ]

/-- Mantissas of one number in `[2 ^ 15, 2 ^ 23)` have one exponent: each
exponent up divides by `2 ^ 8`. -/
theorem exponent_unique {x e e' : Nat} (h : 2 ^ 15 ≤ scaleToExponent x e) (h' : scaleToExponent x e < 2 ^ 23)
    (k : 2 ^ 15 ≤ scaleToExponent x e') (k' : scaleToExponent x e' < 2 ^ 23) : e = e' := by
  have hlt : ∀ {a b}, 2 ^ 15 ≤ scaleToExponent x b → scaleToExponent x a < 2 ^ 23 → a < b → False := by
    intro a b hb ha hab
    obtain ⟨k, rfl⟩ := Nat.exists_eq_add_of_lt hab
    rw [show a + k + 1 = a + (k + 1) by omega, scaleToExponent_add] at hb
    have hpow : 2 ^ 8 ≤ 2 ^ (8 * (k + 1)) := Nat.pow_le_pow_right (by decide) (by omega)
    have hdiv : scaleToExponent x a / 2 ^ (8 * (k + 1)) ≤ scaleToExponent x a / 2 ^ 8 :=
      Nat.div_le_div_left hpow (by decide)
    omega
  rcases Nat.lt_trichotomy e e' with hee | hee | hee
  · exact (hlt k h' hee).elim
  · exact hee
  · exact (hlt h k' hee).elim

/-- `GetCompact` writes the mantissa of `x` for its exponent, which is
normalised into `[2 ^ 15, 2 ^ 23)` unless `x` is zero. -/
theorem compactParts_spec (x : Nat) :
    (compactParts x).2 = scaleToExponent x (compactParts x).1 ∧
      (x ≠ 0 → 2 ^ 15 ≤ (compactParts x).2) ∧ (compactParts x).2 < 2 ^ 23 := by
  have hlow : x ≠ 0 → 2 ^ 16 ≤ topBytes x := by
    intro hx
    have hsize : 8 * (byteLength x - 1) < x.size := by
      have := Nat.size_pos.mpr (Nat.pos_of_ne_zero hx)
      unfold byteLength
      omega
    have hx16 := Nat.lt_size.mp hsize
    unfold topBytes scaleToExponent
    split_ifs with hn
    · calc 2 ^ 16 = 2 ^ (8 * (byteLength x - 1)) * 2 ^ (8 * (3 - byteLength x)) := by
            rw [← pow_add]; congr 1; unfold byteLength at hn hsize ⊢; omega
        _ ≤ x * 2 ^ (8 * (3 - byteLength x)) := Nat.mul_le_mul_right _ hx16
    · rw [Nat.le_div_iff_mul_le (Nat.two_pow_pos _), ← pow_add]
      calc 2 ^ (16 + 8 * (byteLength x - 3)) = 2 ^ (8 * (byteLength x - 1)) := by congr 1; omega
        _ ≤ x := hx16
  refine ⟨?_, fun hx => ?_, compactParts_mantissa_lt x⟩
  · unfold compactParts
    split_ifs
    · rw [scaleToExponent_succ]
      rfl
    · rfl
  · have := hlow hx
    unfold compactParts
    split_ifs with hsign
    · rw [Nat.le_div_iff_mul_le (by decide)]
      omega
    · omega

/-- A nonzero number whose mantissa for `e` is normalised has exponent `e`. -/
theorem compactParts_eq_of_normal {x e : Nat} (hx : x ≠ 0) (h : 2 ^ 15 ≤ scaleToExponent x e)
    (h' : scaleToExponent x e < 2 ^ 23) : compactParts x = (e, scaleToExponent x e) := by
  obtain ⟨hm, hlow, hlt⟩ := compactParts_spec x
  have he : (compactParts x).1 = e := exponent_unique (hm ▸ hlow hx) (hm ▸ hlt) h h'
  rw [Prod.ext_iff, hm, he]
  exact ⟨rfl, rfl⟩

/-- Clearing the bits below the mantissa leaves the mantissa. -/
theorem scaleToExponent_truncate (x e : Nat) :
    scaleToExponent (x / 2 ^ (8 * (e - 3)) * 2 ^ (8 * (e - 3))) e = scaleToExponent x e := by
  unfold scaleToExponent
  split_ifs with he
  · rw [show e - 3 = 0 by omega]
    simp
  · rw [Nat.mul_div_cancel _ (Nat.two_pow_pos _)]

theorem compactParts_mantissa_lt_of_exponent {x : Nat} (hx : x < 2 ^ 256) (he : (compactParts x).1 = 33) :
    (compactParts x).2 < 2 ^ 16 := by
  rw [(compactParts_spec x).1, he, scaleToExponent, if_neg (by decide), Nat.div_lt_iff_lt_mul (Nat.two_pow_pos _),
    ← pow_add]
  exact hx

/-- `SetCompact` of what `GetCompact` writes: the number with the bits below
its mantissa cleared, neither negative nor overflowing. -/
theorem setCompact_compactParts (x : ArithUint256) :
    setCompact ((compactParts x.val).2 + (compactParts x.val).1 * 2 ^ 24) =
      (ArithUint256.ofNat (x.val / 2 ^ (8 * ((compactParts x.val).1 - 3)) * 2 ^ (8 * ((compactParts x.val).1 - 3))),
        false, false) := by
  obtain ⟨hm, -, hlt⟩ := compactParts_spec x.val
  have he := compactParts_exponent_le x.lt
  have h33 := compactParts_mantissa_lt_of_exponent x.lt
  generalize (compactParts x.val).1 = e at hm he h33 ⊢
  generalize (compactParts x.val).2 = m at hm hlt h33 ⊢
  unfold setCompact
  rw [encode_shiftRight (by omega), encode_and_0x7fffff hlt, encode_and_0x800000 hlt]
  by_cases he3 : e ≤ 3
  · have hx : m >>> (8 * (3 - e)) = x.val := by
      rw [hm, scaleToExponent, if_pos he3, Nat.shiftRight_eq_div_pow, Nat.mul_div_cancel _ (Nat.two_pow_pos _)]
    simp [he3, hx, show e - 3 = 0 by omega]
    omega
  · rw [hm, scaleToExponent, if_neg he3] at h33 ⊢
    simp [he3, Nat.shiftLeft_eq]
    omega

theorem scaleToExponent_zero (e : Nat) : scaleToExponent 0 e = 0 := by
  unfold scaleToExponent
  split_ifs <;> simp

/-- Clearing the bits below the mantissa changes neither exponent nor
mantissa. -/
theorem compactParts_truncate (x : Nat) :
    compactParts (x / 2 ^ (8 * ((compactParts x).1 - 3)) * 2 ^ (8 * ((compactParts x).1 - 3))) = compactParts x := by
  by_cases hx : x = 0
  · subst hx
    simp
  obtain ⟨hm, hlow, hlt⟩ := compactParts_spec x
  have hscale := scaleToExponent_truncate x (compactParts x).1
  have hlow' : 2 ^ 15 ≤ scaleToExponent x (compactParts x).1 := hm ▸ hlow hx
  have hy : x / 2 ^ (8 * ((compactParts x).1 - 3)) * 2 ^ (8 * ((compactParts x).1 - 3)) ≠ 0 := by
    intro h0
    rw [h0, scaleToExponent_zero] at hscale
    omega
  rw [compactParts_eq_of_normal hy (hscale ▸ hlow') (hscale ▸ hm ▸ hlt), hscale, ← hm]

theorem ofNat_val {n : Nat} (h : n < 2 ^ 256) : (ArithUint256.ofNat n).val = n := Nat.mod_eq_of_lt h

/-- The compact round trip: `SetCompact(GetCompact(x))` reports neither sign
nor overflow and is `x` with its bits below byte `e - 3` cleared, `e` the
exponent written; below the mantissa those are the top 16 to 23 significant
bits of `x`; the result is at most `x`; and `GetCompact` gives the same
compact number back. -/
theorem compact_roundTrip (x : ArithUint256) :
    ∃ c, getCompact x false = some c ∧
      setCompact c = (ArithUint256.ofNat (x.val / 2 ^ (8 * (c >>> 24 - 3)) * 2 ^ (8 * (c >>> 24 - 3))), false, false) ∧
      (x.val ≠ 0 → 3 < c >>> 24 →
        2 ^ 15 ≤ x.val / 2 ^ (8 * (c >>> 24 - 3)) ∧ x.val / 2 ^ (8 * (c >>> 24 - 3)) < 2 ^ 23) ∧
      (setCompact c).1.val ≤ x.val ∧ getCompact (setCompact c).1 false = some c := by
  obtain ⟨hm, hlow, hlt⟩ := compactParts_spec x.val
  have hc := getCompact_eq x false
  simp only [Bool.false_and, Bool.false_eq_true, if_false, Nat.or_zero] at hc
  have hexp := encode_shiftRight (show (compactParts x.val).2 < 2 ^ 24 by omega) (compactParts x.val).1
  have hset := setCompact_compactParts x
  have hle : x.val / 2 ^ (8 * ((compactParts x.val).1 - 3)) * 2 ^ (8 * ((compactParts x.val).1 - 3)) ≤ x.val :=
    Nat.div_mul_le_self _ _
  refine ⟨_, hc, by rw [hset, hexp], fun hx he3 => ?_, ?_, ?_⟩
  · rw [hexp]
    rw [hexp] at he3
    rw [hm, scaleToExponent, if_neg (by omega)] at hlow hlt
    exact ⟨hlow hx, hlt⟩
  · rw [hset, ofNat_val (by have := x.lt; omega)]
    exact hle
  · rw [hset, getCompact_eq, ofNat_val (by have := x.lt; omega), compactParts_truncate]
    simp

/-- `2 ^ 25 - 1` comes back from the compact form as `2 ^ 25 - 256`: it keeps
its top 17 significant bits, not its top 23 or 24. -/
theorem compact_keeps_seventeen_bits :
    ∃ c, getCompact (ArithUint256.ofNat (2 ^ 25 - 1)) false = some c ∧
      (setCompact c).1.val = 2 ^ 25 - 256 ∧
      (setCompact c).1.val ≠ (2 ^ 25 - 1) / 2 ^ 2 * 2 ^ 2 ∧ (setCompact c).1.val ≠ (2 ^ 25 - 1) / 2 * 2 := by
  have hx : (ArithUint256.ofNat (2 ^ 25 - 1)).val = 2 ^ 25 - 1 := ofNat_val (by norm_num)
  have hscale : scaleToExponent (2 ^ 25 - 1) 4 = 2 ^ 17 - 1 := by norm_num [scaleToExponent]
  have hparts : compactParts (2 ^ 25 - 1) = (4, 2 ^ 17 - 1) := by
    rw [← hscale]
    exact compactParts_eq_of_normal (by norm_num) (by rw [hscale]; norm_num) (by rw [hscale]; norm_num)
  have hset := setCompact_compactParts (ArithUint256.ofNat (2 ^ 25 - 1))
  rw [hx, hparts] at hset
  refine ⟨_, getCompact_eq _ false, ?_⟩
  simp only [hx, hparts, Bool.false_and, Bool.false_eq_true, if_false, Nat.or_zero, hset]
  norm_num [ofNat_val]
end Membercoin
