import Membercoin.Script.NumericOpcodes

/-!
# The `CScriptNum` byte codec

`serialize` writes the magnitude of a number in little-endian bytes with the
sign in the top bit, adding a top byte when that bit is taken; `set_vch` reads
such bytes back; `MinimallyEncode` trims a byte vector to its shortest form in
place. All three are views of one sign-magnitude code: `serialize` writes
exactly the minimal encodings (`isMinimallyEncoded_serialize`,
`serialize_setVch_of_isMinimallyEncoded`), and `MinimallyEncode` replaces its
argument by the `serialize` of its value (`minimallyEncode_eq`), which the
trimming loop reaches by an invariant on its index (`minimallyEncodeTrim_eq`).
-/

namespace Membercoin

open CScriptNum

/-! ## Bytes and their top bit -/
theorem toNat_and_0x7f : ∀ b : UInt8, (b &&& 0x7f).toNat = b.toNat % 128 := by
  intro b
  rw [UInt8.toNat_and]
  exact Nat.and_two_pow_sub_one_eq_mod b.toNat 7
theorem toNat_or_0x80 : ∀ b : UInt8, b.toNat < 128 → (b ||| 0x80).toNat = b.toNat + 128 := by
  intro b hb
  have h := Nat.two_pow_add_eq_or_of_lt (show b.toNat < 2 ^ 7 from hb) 1
  rw [UInt8.toNat_or, show (0x80 : UInt8).toNat = 2 ^ 7 * 1 from rfl, Nat.lor_comm, ← h]
  omega
theorem and_0x7f_eq_self : ∀ b : UInt8, b.toNat < 128 → b &&& 0x7f = b := by
  intro b hb
  apply UInt8.toNat_inj.mp
  rw [toNat_and_0x7f, Nat.mod_eq_of_lt hb]
theorem signByte_of_and_0x7f : ∀ b : UInt8, b &&& 0x7f = 0 → (if 128 ≤ b.toNat then 0x80 else 0) = b := by
  intro b hb
  have hmod : b.toNat % 128 = 0 := by rw [← toNat_and_0x7f, hb]; rfl
  have hlt := b.toNat_lt
  apply UInt8.toNat_inj.mp
  split
  · show 128 = b.toNat
    omega
  · show 0 = b.toNat
    omega
theorem or_0x80_and_0x7f_of_lt : ∀ b : UInt8, b.toNat < 128 → (b ||| 0x80) &&& 0x7f = b := by
  intro b hb
  apply UInt8.toNat_inj.mp
  rw [toNat_and_0x7f, toNat_or_0x80 b hb]
  omega
theorem or_0x80_and_0x7f : ∀ b : UInt8, 128 ≤ b.toNat → (b &&& 0x7f) ||| 0x80 = b := by
  intro b hb
  have hlow : (b &&& 0x7f).toNat < 128 := by rw [toNat_and_0x7f]; omega
  have hlt := b.toNat_lt
  apply UInt8.toNat_inj.mp
  rw [toNat_or_0x80 _ hlow, toNat_and_0x7f]
  omega

/-! ## Magnitudes -/

/-- The bytes of a magnitude, least significant first: the digits of the
`while (absvalue)` loop of `serialize`. -/
def magnitudeBytes (n : Nat) : List UInt8 := (Nat.digits 256 n).map Nat.toUInt8

theorem map_toNat_magnitudeBytes (n : Nat) : (magnitudeBytes n).map UInt8.toNat = Nat.digits 256 n := by
  have hbyte : ∀ d ∈ Nat.digits 256 n, (UInt8.toNat ∘ Nat.toUInt8) d = id d := by
    intro d hd
    have hlt : d < 256 := Nat.digits_lt_base (by decide) hd
    simp [Nat.toUInt8_eq, UInt8.toNat_ofNat', Nat.mod_eq_of_lt hlt]
  rw [magnitudeBytes, List.map_map, List.map_congr_left hbyte, List.map_id]

theorem littleEndianValue_magnitudeBytes (n : Nat) : littleEndianValue (magnitudeBytes n) = n := by
  rw [littleEndianValue, map_toNat_magnitudeBytes, Nat.ofDigits_digits]

/-- Bytes with a non-zero top byte are the magnitude bytes of their value. -/
theorem magnitudeBytes_littleEndianValue {t : List UInt8} (ht : ∀ h : t ≠ [], t.getLast h ≠ 0) :
    magnitudeBytes (littleEndianValue t) = t := by
  have hdigits : Nat.digits 256 (littleEndianValue t) = t.map UInt8.toNat := by
    rw [littleEndianValue]
    apply Nat.digits_ofDigits _ (by decide)
    · intro l hl
      obtain ⟨b, -, rfl⟩ := List.mem_map.mp hl
      exact b.toNat_lt
    · intro hne
      rw [List.getLast_map]
      intro h0
      apply ht (by simpa using hne)
      exact UInt8.toNat_inj.mp (by simpa using h0)
  rw [magnitudeBytes, hdigits, List.map_map]
  exact List.map_id'' (fun b => by simp [Nat.toUInt8_eq]) t

theorem magnitudeBytes_eq_append {n : Nat} (hn : n ≠ 0) :
    ∃ init top, magnitudeBytes n = init ++ [top] ∧ top ≠ 0 := by
  have hne : Nat.digits 256 n ≠ [] := Nat.digits_ne_nil_iff_ne_zero.mpr hn
  have hlast := Nat.getLast_digit_ne_zero 256 hn
  obtain ⟨init, top, heq⟩ := List.eq_nil_or_concat (magnitudeBytes n) |>.resolve_left (by simpa [magnitudeBytes] using hne)
  refine ⟨init, top, by simpa using heq, ?_⟩
  intro h0
  apply hlast
  have hmap := map_toNat_magnitudeBytes n
  rw [heq, List.concat_eq_append, List.map_append, List.map_singleton, h0] at hmap
  simp [← hmap]

/-! ## Sign and magnitude -/

/-- The signed integer with sign `neg` and magnitude `m`. -/
def signedValue (neg : Bool) (m : Nat) : Int := if neg then -(m : Int) else m

/-- The end of `serialize`: the sign goes into the top bit of the magnitude
bytes, or into a new top byte when that bit is taken. -/
def signMagnitude (neg : Bool) (result : List UInt8) : List UInt8 :=
  let last := result.getLast!
  if last &&& 0x80 ≠ 0 then result ++ [if neg then 0x80 else 0]
  else if neg then result.dropLast ++ [last ||| 0x80]
  else result

theorem serialize_eq_signMagnitude {value : Int} (hv : value ≠ 0) :
    serialize value = signMagnitude (decide (value < 0)) (magnitudeBytes value.natAbs) := by
  rw [serialize, if_neg hv]
  rfl

/-- `set_vch` of bytes split at the top byte: its top bit is the sign. -/
theorem setVch_append_singleton (init : List UInt8) (last : UInt8) :
    setVch (init ++ [last]) =
      signedValue (decide (128 ≤ last.toNat)) (littleEndianValue init + 256 ^ init.length * (last.toNat % 128)) := by
  have hlen : (init ++ [last]).length - 1 = init.length := by simp
  have hlast : (init ++ [last]).getLast! = last := by simp
  unfold setVch
  rw [if_neg (by simp), hlen, hlast, littleEndianValue_append_singleton]
  dsimp only
  split_ifs with hsign
  · have h128 := (and_0x80_ne_zero_iff last).mp hsign
    have hmul : 256 ^ init.length * last.toNat =
        256 ^ init.length * (last.toNat % 128) + 0x80 * 256 ^ init.length := by
      have hsplit : last.toNat = last.toNat % 128 + 128 := by have := last.toNat_lt; omega
      nth_rewrite 1 [hsplit]
      ring
    simp only [signedValue, decide_eq_true h128, if_true]
    omega
  · have h128 : ¬128 ≤ last.toNat := fun h => hsign ((and_0x80_ne_zero_iff last).mpr h)
    simp only [signedValue, decide_eq_false h128, Nat.mod_eq_of_lt (Nat.lt_of_not_le h128), Bool.false_eq_true,
      if_false]

theorem magnitudeBytes_littleEndianValue_append {init : List UInt8} {top : UInt8} (htop : top ≠ 0) :
    magnitudeBytes (littleEndianValue (init ++ [top])) = init ++ [top] :=
  magnitudeBytes_littleEndianValue (fun _ => by simpa using htop)

theorem toNat_ne_zero {b : UInt8} (h : b ≠ 0) : b.toNat ≠ 0 := fun h0 => h (UInt8.toNat_inj.mp h0)

theorem littleEndianValue_ne_zero {init : List UInt8} {top : UInt8} (htop : top ≠ 0) :
    littleEndianValue (init ++ [top]) ≠ 0 := by
  rw [littleEndianValue_append_singleton]
  have := Nat.mul_pos (Nat.pow_pos (n := init.length) (by decide : 0 < 256)) (Nat.pos_of_ne_zero (toNat_ne_zero htop))
  omega

theorem signMagnitude_append (neg : Bool) (init : List UInt8) (top : UInt8) :
    signMagnitude neg (init ++ [top]) =
      if 128 ≤ top.toNat then init ++ [top] ++ [if neg then 0x80 else 0]
      else if neg then init ++ [top ||| 0x80] else init ++ [top] := by
  simp [signMagnitude, and_0x80_ne_zero_iff]

theorem serialize_signedValue (neg : Bool) {m : Nat} (hm : m ≠ 0) :
    serialize (signedValue neg m) = signMagnitude neg (magnitudeBytes m) := by
  have hne : signedValue neg m ≠ 0 := by cases neg <;> simp [signedValue, hm]
  have hpos : ¬(m : Int) < 0 := by omega
  rw [serialize_eq_signMagnitude hne]
  cases neg <;> simp [signedValue, hpos, Nat.pos_of_ne_zero hm]

theorem setVch_signMagnitude (neg : Bool) (init : List UInt8) (top : UInt8) :
    setVch (signMagnitude neg (init ++ [top])) = signedValue neg (littleEndianValue (init ++ [top])) := by
  rw [signMagnitude_append]
  by_cases h128 : 128 ≤ top.toNat
  · rw [if_pos h128, setVch_append_singleton]
    cases neg <;> simp [signedValue]
  have hmod : top.toNat % 128 = top.toNat := Nat.mod_eq_of_lt (by omega)
  rw [if_neg h128]
  cases neg with
  | false => simp [setVch_append_singleton, littleEndianValue_append_singleton, signedValue, h128, hmod]
  | true =>
    have hor := toNat_or_0x80 top (by omega)
    simp [setVch_append_singleton, littleEndianValue_append_singleton, signedValue, hor, hmod]

theorem signedValue_natAbs (v : Int) : signedValue (decide (v < 0)) v.natAbs = v := by
  unfold signedValue
  split_ifs with hneg <;> simp at hneg <;> omega

/-- Decoding inverts `serialize`. -/
theorem setVch_serialize (v : Int) : setVch (serialize v) = v := by
  by_cases hv : v = 0
  · simp [hv, serialize, setVch]
  obtain ⟨init, top, hbytes, -⟩ := magnitudeBytes_eq_append (Int.natAbs_ne_zero.mpr hv)
  rw [serialize_eq_signMagnitude hv, hbytes, setVch_signMagnitude, ← hbytes,
    littleEndianValue_magnitudeBytes, signedValue_natAbs]

/-! ## Minimal encodings -/

theorem isMinimallyEncoded_of_and_0x7f {init : List UInt8} {last : UInt8} {n : Nat}
    (h7 : last &&& 0x7f ≠ 0) (hn : init.length + 1 ≤ n) : isMinimallyEncoded (init ++ [last]) n = true := by
  simp [isMinimallyEncoded, h7]
  omega

theorem isMinimallyEncoded_of_signByte {init : List UInt8} {b last : UInt8} {n : Nat}
    (h128 : 128 ≤ b.toNat) (hn : init.length + 2 ≤ n) : isMinimallyEncoded (init ++ [b, last]) n = true := by
  have hsign := (and_0x80_ne_zero_iff b).mpr h128
  simp [isMinimallyEncoded, hsign]
  omega

/-- A minimal encoding with a zero top byte ends in a sign byte above a byte
whose own top bit is taken. -/
theorem isMinimallyEncoded_signByte {init : List UInt8} {last : UInt8} {n : Nat}
    (h : isMinimallyEncoded (init ++ [last]) n = true) (h7 : last &&& 0x7f = 0) :
    ∃ init' b, init = init' ++ [b] ∧ 128 ≤ b.toNat := by
  rcases List.eq_nil_or_concat init with rfl | ⟨init', b, rfl⟩
  · simp [isMinimallyEncoded, h7] at h
  simp [isMinimallyEncoded, h7] at h
  exact ⟨init', b, List.concat_eq_append .., (and_0x80_ne_zero_iff b).mp h.2⟩

/-- `serialize` writes minimal encodings. -/
theorem isMinimallyEncoded_serialize (v : Int) {n : Nat} (hn : (serialize v).length ≤ n) :
    isMinimallyEncoded (serialize v) n = true := by
  by_cases hv : v = 0
  · simp [hv, serialize, isMinimallyEncoded]
  obtain ⟨init, top, hbytes, htop⟩ := magnitudeBytes_eq_append (Int.natAbs_ne_zero.mpr hv)
  rw [serialize_eq_signMagnitude hv, hbytes, signMagnitude_append] at hn ⊢
  by_cases h128 : 128 ≤ top.toNat
  · rw [if_pos h128, List.append_assoc, List.singleton_append] at hn ⊢
    exact isMinimallyEncoded_of_signByte h128 (by simpa using hn)
  rw [if_neg h128] at hn ⊢
  split_ifs at hn ⊢
  · apply isMinimallyEncoded_of_and_0x7f _ (by simpa using hn)
    rwa [or_0x80_and_0x7f_of_lt top (by omega)]
  · apply isMinimallyEncoded_of_and_0x7f _ (by simpa using hn)
    rwa [and_0x7f_eq_self top (by omega)]

/-- A minimal encoding is the `serialize` of its value. -/
theorem serialize_setVch_of_isMinimallyEncoded {vch : List UInt8} {n : Nat}
    (h : isMinimallyEncoded vch n = true) : serialize (setVch vch) = vch := by
  rcases List.eq_nil_or_concat vch with rfl | ⟨init, last, rfl⟩
  · simp [setVch, serialize]
  rw [List.concat_eq_append] at h ⊢
  rw [setVch_append_singleton]
  by_cases h7 : last &&& 0x7f = 0
  · obtain ⟨init', b, rfl, h128⟩ := isMinimallyEncoded_signByte h h7
    have hb0 : b ≠ 0 := by rintro rfl; simp at h128
    have hmod : last.toNat % 128 = 0 := by rw [← toNat_and_0x7f, h7]; rfl
    rw [hmod, Nat.mul_zero, Nat.add_zero, serialize_signedValue _ (littleEndianValue_ne_zero hb0),
      magnitudeBytes_littleEndianValue_append hb0, signMagnitude_append, if_pos h128]
    simp [signByte_of_and_0x7f last h7]
  · have htop : last &&& 0x7f ≠ 0 := h7
    have hval : littleEndianValue init + 256 ^ init.length * (last.toNat % 128) =
        littleEndianValue (init ++ [last &&& 0x7f]) := by
      rw [littleEndianValue_append_singleton, toNat_and_0x7f]
    have hlt : (last &&& 0x7f).toNat < 128 := by rw [toNat_and_0x7f]; omega
    rw [hval, serialize_signedValue _ (littleEndianValue_ne_zero htop),
      magnitudeBytes_littleEndianValue_append htop, signMagnitude_append, if_neg (by omega)]
    by_cases h128 : 128 ≤ last.toNat
    · simp [h128, or_0x80_and_0x7f last h128]
    · simp [h128, and_0x7f_eq_self last (by omega)]

/-! ## `MinimallyEncode` -/

@[simp] theorem signedValue_zero (neg : Bool) : signedValue neg 0 = 0 := by cases neg <;> rfl

/-- The trimming loop run from index `i` with the sign byte `last` writes the
minimal encoding of the first `i` bytes, with that sign. -/
theorem minimallyEncodeTrim_eq (data : List UInt8) (neg : Bool) {last : UInt8}
    (hlast : last = if neg then 0x80 else 0) :
    ∀ i ≤ data.length, minimallyEncodeTrim data last i = serialize (signedValue neg (littleEndianValue (data.take i)))
  | 0, _ => by simp [minimallyEncodeTrim, littleEndianValue, serialize]
  | i + 1, hi => by
    have hget : data[i]! = data[i] := getElem!_pos data i (by omega)
    have htake : data.take (i + 1) = data.take i ++ [data[i]] := List.take_succ_eq_append_getElem (by omega)
    rw [minimallyEncodeTrim, hget, htake]
    by_cases hz : data[i] = 0
    · rw [if_neg (not_not.mpr hz), minimallyEncodeTrim_eq data neg hlast i (by omega),
        littleEndianValue_append_singleton, hz]
      rfl
    rw [if_pos hz, serialize_signedValue _ (littleEndianValue_ne_zero hz),
      magnitudeBytes_littleEndianValue_append hz, signMagnitude_append]
    subst hlast
    by_cases h128 : 128 ≤ data[i].toNat
    · simp [h128, and_0x80_ne_zero_iff]
    · cases neg <;> simp [h128, and_0x80_ne_zero_iff]

/-- `MinimallyEncode` replaces the data by the `serialize` of its value, and
reports a change exactly when the data was not minimal. -/
theorem minimallyEncode_eq (data : List UInt8) :
    minimallyEncode data = (!isMinimallyEncoded data data.length, serialize (setVch data)) := by
  rcases List.eq_nil_or_concat data with rfl | ⟨init, last, rfl⟩
  · rfl
  rw [List.concat_eq_append]
  by_cases h7 : last &&& 0x7f = 0
  swap
  · have hmin : isMinimallyEncoded (init ++ [last]) (init ++ [last]).length = true :=
      isMinimallyEncoded_of_and_0x7f h7 (by simp)
    rw [hmin, serialize_setVch_of_isMinimallyEncoded hmin]
    simp [minimallyEncode, h7]
  have hmod : last.toNat % 128 = 0 := by rw [← toNat_and_0x7f, h7]; rfl
  rcases List.eq_nil_or_concat init with rfl | ⟨init', b, rfl⟩
  · have hzero : setVch ([] ++ [last]) = 0 := by rw [setVch_append_singleton, hmod]; simp [littleEndianValue]
    rw [hzero]
    simp [minimallyEncode, h7, isMinimallyEncoded, serialize]
  rw [List.concat_eq_append]
  by_cases h128 : 128 ≤ b.toNat
  · have hmin : isMinimallyEncoded (init' ++ [b] ++ [last]) (init' ++ [b] ++ [last]).length = true := by
      rw [List.append_assoc, List.singleton_append]
      exact isMinimallyEncoded_of_signByte h128 (by simp)
    rw [hmin, serialize_setVch_of_isMinimallyEncoded hmin]
    simp [minimallyEncode, h7, (and_0x80_ne_zero_iff b).mpr h128]
  · have hb80 : b &&& 0x80 = 0 := by
      by_contra h
      exact h128 ((and_0x80_ne_zero_iff b).mp h)
    have hnot : isMinimallyEncoded (init' ++ [b] ++ [last]) (init' ++ [b] ++ [last]).length = false := by
      simp [isMinimallyEncoded, h7, hb80]
    have hval : setVch (init' ++ [b] ++ [last]) =
        signedValue (decide (128 ≤ last.toNat)) (littleEndianValue (init' ++ [b])) := by
      rw [setVch_append_singleton, hmod, Nat.mul_zero, Nat.add_zero]
    have hsign : last = if decide (128 ≤ last.toNat) then 0x80 else 0 := by
      simpa using (signByte_of_and_0x7f last h7).symm
    have htrim := minimallyEncodeTrim_eq (init' ++ [b] ++ [last]) _ hsign
      ((init' ++ [b] ++ [last]).length - 1) (by simp)
    have htake : (init' ++ [b] ++ [last]).take ((init' ++ [b] ++ [last]).length - 1) = init' ++ [b] :=
      List.take_left' (by simp)
    rw [htake] at htrim
    rw [hnot, hval, ← htrim]
    simp [minimallyEncode, h7, hb80]

theorem length_signMagnitude (neg : Bool) (init : List UInt8) (top : UInt8) :
    (signMagnitude neg (init ++ [top])).length = init.length + 1 + if 128 ≤ top.toNat then 1 else 0 := by
  rw [signMagnitude_append]
  split_ifs <;> simp

/-- Below `128 * 256^k` in magnitude a value serializes to at most `k + 1`
bytes: the sign bit fits in the top byte. -/
theorem length_serialize_le {v : Int} {k : Nat} (h : v.natAbs < 128 * 256 ^ k) :
    (serialize v).length ≤ k + 1 := by
  by_cases hv : v = 0
  · simp [hv, serialize]
  obtain ⟨init, top, hbytes, htop⟩ := magnitudeBytes_eq_append (Int.natAbs_ne_zero.mpr hv)
  have hval : v.natAbs = littleEndianValue init + 256 ^ init.length * top.toNat := by
    rw [← littleEndianValue_append_singleton, ← hbytes, littleEndianValue_magnitudeBytes]
  have hlow : 256 ^ init.length ≤ 256 ^ init.length * top.toNat :=
    Nat.le_mul_of_pos_right _ (Nat.pos_of_ne_zero (toNat_ne_zero htop))
  rw [serialize_eq_signMagnitude hv, hbytes, length_signMagnitude]
  by_cases hshort : init.length + 1 ≤ k
  · split_ifs <;> omega
  have hk : init.length = k := by
    by_contra hne
    have hpow : 256 ^ (k + 1) ≤ 256 ^ init.length := Nat.pow_le_pow_right (by decide) (by omega)
    rw [Nat.pow_succ] at hpow
    omega
  subst hk
  have htop128 : ¬128 ≤ top.toNat := by
    intro h128
    have := Nat.mul_le_mul_left (256 ^ init.length) h128
    omega
  simp [htop128]

theorem length_serialize_setVch_le (vch : List UInt8) : (serialize (setVch vch)).length ≤ vch.length := by
  rcases Nat.eq_zero_or_pos vch.length with hlen | hlen
  · simp [List.length_eq_zero_iff.mp hlen, setVch, serialize]
  have := length_serialize_le (setVch_natAbs_lt vch)
  omega

theorem minimallyEncode_snd (data : List UInt8) : (minimallyEncode data).2 = serialize (setVch data) := by
  rw [minimallyEncode_eq]

theorem setVch_minimallyEncode (data : List UInt8) : setVch (minimallyEncode data).2 = setVch data := by
  rw [minimallyEncode_snd, setVch_serialize]

/-- A second `MinimallyEncode` finds nothing to change. -/
theorem minimallyEncode_minimallyEncode (data : List UInt8) :
    minimallyEncode (minimallyEncode data).2 = (false, (minimallyEncode data).2) := by
  rw [minimallyEncode_eq, minimallyEncode_snd, isMinimallyEncoded_serialize _ (le_refl _), setVch_serialize]
  rfl

/-- `MinimallyEncode` is a normalisation: its result is minimal under every
size limit it fits, keeps the value and does not grow; it reports a change
exactly for non-minimal data; and a second call changes nothing. -/
theorem minimallyEncode_normalizes (d : List UInt8) :
    (∀ n ≥ (minimallyEncode d).2.length, isMinimallyEncoded (minimallyEncode d).2 n = true) ∧
      setVch (minimallyEncode d).2 = setVch d ∧
      (minimallyEncode d).2.length ≤ d.length ∧
      ((minimallyEncode d).1 = true ↔ isMinimallyEncoded d d.length = false) ∧
      minimallyEncode (minimallyEncode d).2 = (false, (minimallyEncode d).2) := by
  refine ⟨fun n hn => ?_, setVch_minimallyEncode d, ?_, ?_, minimallyEncode_minimallyEncode d⟩
  · rw [minimallyEncode_snd] at hn ⊢
    exact isMinimallyEncoded_serialize _ hn
  · rw [minimallyEncode_snd]
    exact length_serialize_setVch_le d
  · rw [minimallyEncode_eq]
    simp

/-- On `int64_t` values other than `INT64_MIN`, `set_vch` inverts
`serialize` and `serialize` writes eight-byte minimal encodings; on minimal
encodings of at most eight bytes, `serialize` inverts `set_vch`. -/
theorem serialize_setVch_inverse :
    (∀ v : Int, IsInt64 v → v ≠ int64Min →
        setVch (serialize v) = v ∧ isMinimallyEncoded (serialize v) 8 = true) ∧
      ∀ b : List UInt8, b.length ≤ 8 → isMinimallyEncoded b 8 = true → serialize (setVch b) = b := by
  refine ⟨fun v hv hmin => ⟨setVch_serialize v, ?_⟩, fun b _ hb => serialize_setVch_of_isMinimallyEncoded hb⟩
  have habs : v.natAbs < 128 * 256 ^ 7 := by
    unfold IsInt64 int64Min int64Max at *
    omega
  exact isMinimallyEncoded_serialize v (length_serialize_le habs)

end Membercoin
