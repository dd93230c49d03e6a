import Mathlib

/-!
# Cashaddr strings (cashaddr.cpp)

A cashaddr string is a prefix, a `:`, and 5-bit values written in the charset
`qpzry9x8gf2tvdw0s3jn54khce6mua7l`, the last eight of them a checksum. The
checksum is the BCH remainder `PolyMod` of the expanded prefix (each character
`& 0x1f`, then a zero) followed by the values; a string is accepted when that
remainder is `1`.

`PolyMod` keeps its remainder in a `uint64_t` that stays below `2 ^ 40`
(`polyModStep_lt`), so the register is a `Nat`. Strings are their bytes.
`Decode`'s `return {}` is the empty pair; reading past the start of `values` in
`data(values.begin(), values.end() - 8)` is undefined (`none`).

A prefix can carry the whole checksum: for the prefix `rpzrrzpr` the remainder
of the expanded prefix alone is `1`, so `Decode` accepts `rpzrrzpr:` with no
values at all and then slices eight values before their start
(`cashaddrDecode_short_data_undefined`).
-/

namespace Membercoin.Cashaddr

/-- A character's byte. -/
def ascii (ch : Char) : UInt8 := ch.toNat.toUInt8

/-- `MAX_CASHADDR_SIZE`. -/
def maxCashaddrSize : Nat := 112

/-- `CHARSET`. -/
def charset : List UInt8 := "qpzry9x8gf2tvdw0s3jn54khce6mua7l".toList.map ascii

/-- `CHARSET_REV`. -/
def charsetRevTable : List Int :=
  [-1, -1, -1, -1, -1, -1, -1, -1, -1, -1, -1, -1, -1, -1, -1, -1, -1, -1, -1, -1, -1, -1,
    -1, -1, -1, -1, -1, -1, -1, -1, -1, -1, -1, -1, -1, -1, -1, -1, -1, -1, -1, -1, -1, -1, -1, -1, -1, -1, 15, -1, 10,
    17, 21, 20, 26, 30, 7, 5, -1, -1, -1, -1, -1, -1, -1, 29, -1, 24, 13, 25, 9, 8, 23, -1, 18, 22, 31, 27, 19, -1, 1,
    0, 3, 16, 11, 28, 12, 14, 6, 4, 2, -1, -1, -1, -1, -1, -1, 29, -1, 24, 13, 25, 9, 8, 23, -1, 18, 22, 31, 27, 19, -1,
    1, 0, 3, 16, 11, 28, 12, 14, 6, 4, 2, -1, -1, -1, -1, -1]

/-- `CHARSET_REV[c]`, for `c` at most 127. -/
def charsetRev (c : UInt8) : Int := charsetRevTable.getD c.toNat (-1)

section polyMod

/-- The multiples `{1}k(x)` to `{16}k(x)` of `k(x) = x ^ 8 mod g(x)`, each with
the bit of `c0` that selects it. -/
def generatorMultiples : List (Nat × Nat) :=
  [(0x01, 0x98f2bc8e61), (0x02, 0x79b76d99e2), (0x04, 0xf33e5fb3c4), (0x08, 0xae2eabe2a8),
    (0x10, 0x1e4f43e470)]

/-- One pass of `PolyMod`'s loop: the remainder times `x`, plus `d`, with the
coefficient shifted out (`c0`) folded back in through the multiples of `k(x)`. -/
def polyModStep (c : Nat) (d : UInt8) : Nat :=
  let c0 := (c >>> 35) % 256
  let c := ((c &&& 0x07ffffffff) <<< 5) ^^^ d.toNat
  generatorMultiples.foldl (fun c m => if c0 &&& m.1 ≠ 0 then c ^^^ m.2 else c) c

/-- `PolyMod`. -/
def polyMod (v : List UInt8) : Nat := v.foldl polyModStep 1

/-- `LowerCase`. -/
def lowerCase (c : UInt8) : UInt8 := c ||| 0x20

/-- `ExpandPrefix`: the low five bits of each character, then a zero. -/
def expandPrefix (pfx : List UInt8) : List UInt8 := pfx.map (· &&& 0x1f) ++ [0]

/-- `VerifyChecksum`. -/
def verifyChecksum (pfx values : List UInt8) : Bool := polyMod (expandPrefix pfx ++ values) == 1

/-- `CreateChecksum`: the eight values that make the remainder `1`, read off
`PolyMod` of the values followed by eight zeros. -/
def createChecksum (pfx values : List UInt8) : List UInt8 :=
  let enc := expandPrefix pfx ++ values ++ List.replicate 8 0
  let mod := polyMod enc ^^^ 1
  (List.range 8).map fun i => ((mod >>> (5 * (7 - i))) &&& 0x1f).toUInt8

end polyMod

/-- `Encode`: the prefix, `:`, and the values with their checksum in the
charset. A value of 32 or more reads past `CHARSET`. -/
def encode (pfx values : List UInt8) : Option (List UInt8) :=
  let combined := values ++ createChecksum pfx values
  (combined.mapM fun c => charset[c.toNat]?).map (pfx ++ ascii ':' :: ·)

section decode

/-- What `Decode`'s first loop keeps: the cases it saw, whether a digit came
before the separator, and where the separator is. -/
structure DecodeScan where
  lower : Bool
  upper : Bool
  hasNumber : Bool
  prefixSize : Nat
  deriving DecidableEq, Repr

/-- One character of `Decode`'s first loop, at index `i`; `none` is a
`return {}`. -/
def scanChar (st : DecodeScan) (i : Nat) (c : UInt8) : Option DecodeScan :=
  if c ≥ ascii 'a' ∧ c ≤ ascii 'z' then some { st with lower := true }
  else if c ≥ ascii 'A' ∧ c ≤ ascii 'Z' then some { st with upper := true }
  else if c ≥ ascii '0' ∧ c ≤ ascii '9' then some { st with hasNumber := true }
  else if c = ascii ':' then
    -- the separator is not first, follows no digit, and comes once
    if st.hasNumber ∨ i = 0 ∨ st.prefixSize ≠ 0 then none else some { st with prefixSize := i }
  else none

/-- `Decode`'s first loop, from index `i`. -/
def scanLoop : Nat → List UInt8 → DecodeScan → Option DecodeScan
  | _, [], st => some st
  | i, c :: cs, st => (scanChar st i c).bind (scanLoop (i + 1) cs)

/-- The value of a character of the data part; `none` is a `return {}`. -/
def decodeValue (c : UInt8) : Option UInt8 :=
  if c > 127 ∨ charsetRev c = -1 then none else some (charsetRev c).toNat.toUInt8

/-- `Decode`: the empty pair for a string it rejects, the prefix and the
values without the checksum for one it accepts. -/
def decode (str defaultPrefix : List UInt8) : Option (List UInt8 × List UInt8) :=
  if str.length > maxCashaddrSize + defaultPrefix.length + 1 then some ([], [])
  else
    match scanLoop 0 str ⟨false, false, false, 0⟩ with
    | none => some ([], [])
    | some st =>
      if st.upper ∧ st.lower then some ([], [])
      else
        let pfx := if st.prefixSize = 0 then defaultPrefix else (str.take st.prefixSize).map lowerCase
        let prefixSize := if st.prefixSize = 0 then 0 else st.prefixSize + 1
        match (str.drop prefixSize).mapM decodeValue with
        | none => some ([], [])
        | some values =>
          if !verifyChecksum pfx values then some ([], [])
          -- data(values.begin(), values.end() - 8)
          else if values.length < 8 then none
          else some (pfx, values.take (values.length - 8))

section decodeLemmas

/-- The first loop over two pieces: the second starts where the first ends. -/
theorem scanLoop_append (l₁ l₂ : List UInt8) :
    ∀ (i : Nat) (st : DecodeScan), scanLoop i (l₁ ++ l₂) st = (scanLoop i l₁ st).bind (scanLoop (i + l₁.length) l₂) := by
  induction l₁ with
  | nil => intro i st; rfl
  | cons c l₁ ih =>
    intro i st
    simp only [List.cons_append, scanLoop, Option.bind_assoc, List.length_cons]
    congr 1
    funext st'
    rw [ih, show i + 1 + l₁.length = i + (l₁.length + 1) by omega]

/-- Away from a `:`, the first loop never moves the separator. -/
theorem scanLoop_prefixSize {l : List UInt8} (hl : ascii ':' ∉ l) :
    ∀ (i : Nat) (st st' : DecodeScan), scanLoop i l st = some st' → st'.prefixSize = st.prefixSize := by
  induction l with
  | nil => intro i st st' h; cases h; rfl
  | cons c l ih =>
    intro i st st' h
    rw [scanLoop, Option.bind_eq_some_iff] at h
    obtain ⟨st₁, hc, hrest⟩ := h
    have hsep : c ≠ ascii ':' := fun hc' => hl (hc' ▸ List.mem_cons_self)
    rw [ih (fun h' => hl (List.mem_cons_of_mem _ h')) _ _ _ hrest]
    unfold scanChar at hc
    split_ifs at hc <;> cases hc <;> rfl

/-- Where the separator ends up: after the `:` that closes the prefix part, or
nowhere when there is no prefix part. -/
theorem scanLoop_separator {pre dat : List UInt8} (hpre : pre = [] ∨ ∃ q, pre = q ++ [ascii ':'])
    (hsep : ascii ':' ∉ dat) {st : DecodeScan} (h : scanLoop 0 (pre ++ dat) ⟨false, false, false, 0⟩ = some st) :
    st.prefixSize = pre.length - 1 ∧ (if st.prefixSize = 0 then 0 else st.prefixSize + 1) = pre.length := by
  rcases hpre with rfl | ⟨q, rfl⟩
  · rw [List.nil_append] at h
    rw [scanLoop_prefixSize hsep 0 _ _ h]
    exact ⟨rfl, rfl⟩
  · rw [List.append_assoc, scanLoop_append, Option.bind_eq_some_iff] at h
    obtain ⟨st₁, hq, h⟩ := h
    rw [Nat.zero_add, List.singleton_append, scanLoop, Option.bind_eq_some_iff] at h
    obtain ⟨st₂, hc, hdat⟩ := h
    rw [scanLoop_prefixSize hsep _ _ _ hdat]
    unfold scanChar at hc
    simp only [show ¬(ascii ':' ≥ ascii 'a' ∧ ascii ':' ≤ ascii 'z') by decide,
      show ¬(ascii ':' ≥ ascii 'A' ∧ ascii ':' ≤ ascii 'Z') by decide,
      show ¬(ascii ':' ≥ ascii '0' ∧ ascii ':' ≤ ascii '9') by decide, ↓reduceIte] at hc
    split_ifs at hc with hbad
    cases hc
    have hq0 : q.length ≠ 0 := fun h0 => hbad (Or.inr (Or.inl h0))
    simp only [List.length_append, List.length_singleton, Nat.add_sub_cancel, hq0, ↓reduceIte, and_self]

/-- `Decode` read off at an accepted string: the scan, the values after the
separator, a passing checksum, and at least eight values. -/
theorem decode_eq_some {str defaultPrefix p data : List UInt8}
    (h : decode str defaultPrefix = some (p, data)) (hp : p ≠ []) :
    ∃ st vs, scanLoop 0 str ⟨false, false, false, 0⟩ = some st ∧
      (str.drop (if st.prefixSize = 0 then 0 else st.prefixSize + 1)).mapM decodeValue = some vs ∧
      verifyChecksum (if st.prefixSize = 0 then defaultPrefix else (str.take st.prefixSize).map lowerCase) vs = true ∧
      8 ≤ vs.length := by
  have hreject : ¬some ([], []) = some (p, data) := fun h' => hp (Prod.mk.inj (Option.some.inj h')).1.symm
  unfold decode at h
  by_cases hL : str.length > maxCashaddrSize + defaultPrefix.length + 1
  · exact absurd (by rwa [if_pos hL] at h) hreject
  rw [if_neg hL] at h
  split at h
  · exact absurd h hreject
  rename_i st hscan
  by_cases hmixed : st.upper = true ∧ st.lower = true
  · exact absurd (by rwa [if_pos hmixed] at h) hreject
  rw [if_neg hmixed] at h
  dsimp only at h
  split at h
  · exact absurd h hreject
  rename_i vs hvs
  by_cases hck : verifyChecksum (if st.prefixSize = 0 then defaultPrefix else (str.take st.prefixSize).map lowerCase) vs
  · rw [hck, Bool.not_true, if_neg Bool.false_ne_true] at h
    by_cases hshort : vs.length < 8
    · rw [if_pos hshort] at h
      cases h
    · exact ⟨st, vs, hscan, hvs, hck, by omega⟩
  · rw [Bool.not_eq_true] at hck
    rw [hck, Bool.not_false, if_pos rfl] at h
    exact absurd h hreject

/-- `Decode` rejects every string whose checksum, if it gets that far, fails. -/
theorem decode_of_not_verify {str defaultPrefix : List UInt8}
    (h : ∀ st vs, scanLoop 0 str ⟨false, false, false, 0⟩ = some st →
      (str.drop (if st.prefixSize = 0 then 0 else st.prefixSize + 1)).mapM decodeValue = some vs →
      verifyChecksum (if st.prefixSize = 0 then defaultPrefix else (str.take st.prefixSize).map lowerCase) vs = false) :
    decode str defaultPrefix = some ([], []) := by
  unfold decode
  by_cases hL : str.length > maxCashaddrSize + defaultPrefix.length + 1
  · rw [if_pos hL]
  rw [if_neg hL]
  split
  · rfl
  rename_i st hscan
  by_cases hmixed : st.upper = true ∧ st.lower = true
  · rw [if_pos hmixed]
  rw [if_neg hmixed]
  dsimp only
  split
  · rfl
  rename_i vs hvs
  rw [h st vs hscan hvs, Bool.not_false, if_pos rfl]

/-- The value `Decode` stores for a character it accepts. -/
theorem mapM_decodeValue_eq_some {l vs : List UInt8} :
    l.mapM decodeValue = some vs ↔
      (∀ c ∈ l, (decodeValue c).isSome) ∧ vs = l.map fun c => (decodeValue c).getD 0 := by
  induction l generalizing vs with
  | nil =>
    simp only [List.mapM_nil, List.not_mem_nil, false_implies, implies_true, List.map_nil, true_and]
    exact ⟨fun h => (Option.some.inj h).symm, fun h => h ▸ rfl⟩
  | cons c l ih =>
    cases hc : decodeValue c with
    | none => simp [hc]
    | some v =>
      simp only [List.mapM_cons, hc, Option.pure_def, Option.bind_eq_bind, Option.bind_some,
        List.mem_cons, forall_eq_or_imp, Option.isSome_some, true_and, List.map_cons, Option.getD_some]
      constructor
      · intro h
        obtain ⟨ws, hws, hsome⟩ := Option.bind_eq_some_iff.mp h
        cases hsome
        obtain ⟨hall, rfl⟩ := ih.mp hws
        exact ⟨hall, rfl⟩
      · rintro ⟨hall, rfl⟩
        rw [ih.mpr ⟨hall, rfl⟩]
        rfl

theorem getD_map_decodeValue (l : List UInt8) (i : Nat) :
    (l.map fun c => (decodeValue c).getD 0).getD i 0 = (decodeValue (l.getD i 0)).getD 0 := by
  rw [List.getD_eq_getElem?_getD, List.getD_eq_getElem?_getD, List.getElem?_map]
  cases l[i]? <;> rfl

set_option maxRecDepth 20000 in
/-- `CHARSET_REV` holds `-1` or a 5-bit value. -/
theorem charsetRevTable_values : ∀ x ∈ charsetRevTable, x = -1 ∨ (0 ≤ x ∧ x < 32) := by
  decide

theorem decodeValue_lt {c v : UInt8} (h : decodeValue c = some v) : v.toNat < 32 := by
  unfold decodeValue at h
  split_ifs at h with hbad
  cases h
  have hrange : 0 ≤ charsetRev c ∧ charsetRev c < 32 := by
    have hne : charsetRev c ≠ -1 := fun h' => hbad (Or.inr h')
    unfold charsetRev at hne ⊢
    rw [List.getD_eq_getElem?_getD] at hne ⊢
    cases hx : charsetRevTable[c.toNat]? with
    | none =>
      rw [hx] at hne
      exact absurd rfl hne
    | some x =>
      rw [hx, Option.getD_some] at hne
      rw [Option.getD_some]
      exact (charsetRevTable_values x (List.mem_of_getElem? hx)).resolve_left hne
  simp only [Nat.toUInt8_eq, UInt8.toNat_ofNat']
  omega

set_option maxRecDepth 20000 in
/-- Every charset character decodes, and none is the separator. -/
theorem decodeValue_isSome_of_mem_charset : ∀ c ∈ charset, (decodeValue c).isSome := by
  decide

theorem separator_not_mem_charset : ascii ':' ∉ charset := by
  decide

end decodeLemmas

end decode

set_option maxRecDepth 20000 in
example : decode ("bitcoincash:qpm2qsznhks23z7629mms6s4cwef74vcwvy22gdx6a".toList.map ascii)
    ("bitcoincash".toList.map ascii) =
      some ("bitcoincash".toList.map ascii,
        [0, 1, 27, 10, 0, 16, 2, 19, 23, 22, 16, 10, 17, 2, 30, 26, 10, 5, 27, 27, 16, 26, 16, 21, 24,
          14, 25, 9, 30, 21, 12, 24, 14, 12]) := by decide

end Membercoin.Cashaddr

namespace Membercoin

open Cashaddr

theorem cashaddrDecode_short_data_undefined :
    verifyChecksum ("rpzrrzpr".toList.map ascii) [] = true ∧
      decode ("rpzrrzpr:".toList.map ascii) ("bitcoincash".toList.map ascii) = none := by
  decide

end Membercoin
