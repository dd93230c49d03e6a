import Membercoin.Encoding.Base64

/-!
# Base32 (utilstrencodings.cpp)

`EncodeBase32` and `DecodeBase32` are the loops of Base64 with five-bit
characters. The encoder holds back `8 * mode % 5` bits in five modes. It pads
its output to a multiple of eight characters with `nPadding[mode]` signs `=`.
The decoder holds back `5 * mode % 8` bits in eight modes. Two of them (2 and 5)
write no byte. It sets `*pfInvalid` in the modes that no encoding ends in
(1, 3 and 6). It also sets it unless the bits held back are zero and the
padding that the mode calls for follows.

The invariants and the argument are those of `Membercoin.Base64`. Decoding an
encoding gives its bytes back (`decodeBase32_encodeBase32`). Together with
the same fact for Base64, this is `base64_base32_roundtrip`.
-/

namespace Membercoin

open ByteCodec Radix

namespace Base32

section model

/-- `pbase32`, the alphabet. -/
def pbase32 : List UInt8 := asciiBytes "abcdefghijklmnopqrstuvwxyz234567"

/-- The state of the loop of `EncodeBase32`. -/
structure EncodeState where
  mode : Nat
  left : Nat
  strRet : List UInt8

/-- One byte `enc` in the loop of `EncodeBase32`. -/
def encodeStep (st : EncodeState) (enc : UInt8) : EncodeState :=
  let enc := enc.toNat
  match st.mode with
  | 0 => ⟨1, (enc &&& 7) <<< 2, st.strRet ++ [pbase32.getD (enc >>> 3) 0]⟩
  | 1 => ⟨2, (enc &&& 1) <<< 4,
      st.strRet ++ [pbase32.getD (st.left ||| enc >>> 6) 0, pbase32.getD (enc >>> 1 &&& 31) 0]⟩
  | 2 => ⟨3, (enc &&& 15) <<< 1, st.strRet ++ [pbase32.getD (st.left ||| enc >>> 4) 0]⟩
  | 3 => ⟨4, (enc &&& 3) <<< 3,
      st.strRet ++ [pbase32.getD (st.left ||| enc >>> 7) 0, pbase32.getD (enc >>> 2 &&& 31) 0]⟩
  | 4 => ⟨0, st.left, st.strRet ++ [pbase32.getD (st.left ||| enc >>> 5) 0, pbase32.getD (enc &&& 31) 0]⟩
  | _ => st

/-- `nPadding`: the signs `=` after the last character, by mode. -/
def nPadding : List Nat := [0, 6, 4, 3, 1]

/-- `EncodeBase32(pch, len)`. -/
def encodeBase32 (bytes : List UInt8) : List UInt8 :=
  let st := bytes.foldl encodeStep ⟨0, 0, []⟩
  if st.mode ≠ 0 then
    st.strRet ++ [pbase32.getD st.left 0] ++ List.replicate (nPadding.getD st.mode 0) (asciiByte '=')
  else st.strRet

/-- `decode32_table`. -/
def decode32Table : List Int :=
  [-1, -1, -1, -1, -1, -1, -1, -1, -1, -1, -1, -1, -1, -1, -1, -1, -1, -1, -1, -1, -1, -1, -1, -1,
    -1, -1, -1, -1, -1, -1, -1, -1, -1, -1, -1, -1, -1, -1, -1, -1, -1, -1, -1, -1, -1, -1, -1, -1,
    -1, -1, 26, 27, 28, 29, 30, 31, -1, -1, -1, -1, -1, -1, -1, -1, -1, 0, 1, 2, 3, 4, 5, 6,
    7, 8, 9, 10, 11, 12, 13, 14, 15, 16, 17, 18, 19, 20, 21, 22, 23, 24, 25, -1, -1, -1, -1, -1,
    -1, 0, 1, 2, 3, 4, 5, 6, 7, 8, 9, 10, 11, 12, 13, 14, 15, 16, 17, 18, 19, 20, 21, 22,
    23, 24, 25, -1, -1, -1, -1, -1, -1, -1, -1, -1, -1, -1, -1, -1, -1, -1, -1, -1, -1, -1, -1, -1,
    -1, -1, -1, -1, -1, -1, -1, -1, -1, -1, -1, -1, -1, -1, -1, -1, -1, -1, -1, -1, -1, -1, -1, -1,
    -1, -1, -1, -1, -1, -1, -1, -1, -1, -1, -1, -1, -1, -1, -1, -1, -1, -1, -1, -1, -1, -1, -1, -1,
    -1, -1, -1, -1, -1, -1, -1, -1, -1, -1, -1, -1, -1, -1, -1, -1, -1, -1, -1, -1, -1, -1, -1, -1,
    -1, -1, -1, -1, -1, -1, -1, -1, -1, -1, -1, -1, -1, -1, -1, -1, -1, -1, -1, -1, -1, -1, -1, -1,
    -1, -1, -1, -1, -1, -1, -1, -1, -1, -1, -1, -1, -1, -1, -1, -1]

/-- `decode32_table[(unsigned char)c]`. -/
def decode32 (c : UInt8) : Int := decode32Table.getD c.toNat (-1)

/-- The state of the loop of `DecodeBase32`. -/
structure DecodeState where
  mode : Nat
  left : Nat
  vchRet : List UInt8

/-- One character of value `dec` in the loop of `DecodeBase32`; `push_back`
stores the low byte of an `int`. -/
def decodeStep (st : DecodeState) (dec : Nat) : DecodeState :=
  match st.mode with
  | 0 => ⟨1, dec, st.vchRet⟩
  | 1 => ⟨2, dec &&& 3, st.vchRet ++ [(st.left <<< 3 ||| dec >>> 2).toUInt8]⟩
  | 2 => ⟨3, st.left <<< 5 ||| dec, st.vchRet⟩
  | 3 => ⟨4, dec &&& 15, st.vchRet ++ [(st.left <<< 1 ||| dec >>> 4).toUInt8]⟩
  | 4 => ⟨5, dec &&& 1, st.vchRet ++ [(st.left <<< 4 ||| dec >>> 1).toUInt8]⟩
  | 5 => ⟨6, st.left <<< 5 ||| dec, st.vchRet⟩
  | 6 => ⟨7, dec &&& 7, st.vchRet ++ [(st.left <<< 2 ||| dec >>> 3).toUInt8]⟩
  | 7 => ⟨0, st.left, st.vchRet ++ [(st.left <<< 5 ||| dec).toUInt8]⟩
  | _ => st

/-- The loop of `DecodeBase32` up to the first character whose entry is `-1`:
the state, and the characters from that one on. -/
def decodeLoop (st : DecodeState) : List UInt8 → DecodeState × List UInt8
  | [] => (st, [])
  | c :: p => if decode32 c = -1 then (st, c :: p) else decodeLoop (decodeStep st (decode32 c).toNat) p

/-- `DecodeBase32(p, pfInvalid)`: the bytes, and what is stored in `*pfInvalid`. -/
def decodeBase32 (p : List UInt8) : List UInt8 × Bool :=
  let r := decodeLoop ⟨0, 0, []⟩ p
  let st := r.1
  let p := r.2
  let fInvalid :=
    match st.mode with
    | 0 => false
    | 1 | 3 | 6 => true
    | 2 => st.left != 0 || p.getD 0 0 != asciiByte '=' || p.getD 1 0 != asciiByte '=' ||
        p.getD 2 0 != asciiByte '=' || p.getD 3 0 != asciiByte '=' || p.getD 4 0 != asciiByte '=' ||
        p.getD 5 0 != asciiByte '=' || decode32 (p.getD 6 0) != -1
    | 4 => st.left != 0 || p.getD 0 0 != asciiByte '=' || p.getD 1 0 != asciiByte '=' ||
        p.getD 2 0 != asciiByte '=' || p.getD 3 0 != asciiByte '=' || decode32 (p.getD 4 0) != -1
    | 5 => st.left != 0 || p.getD 0 0 != asciiByte '=' || p.getD 1 0 != asciiByte '=' ||
        p.getD 2 0 != asciiByte '=' || decode32 (p.getD 3 0) != -1
    | 7 => st.left != 0 || p.getD 0 0 != asciiByte '=' || decode32 (p.getD 1 0) != -1
    | _ => false
  (st.vchRet, fInvalid)

example : encodeBase32 (asciiBytes "fooba") = asciiBytes "mzxw6ytb" := by decide

example : decodeBase32 (asciiBytes "mzxw6yq=") = (asciiBytes "foob", false) := by decide

end model

section alphabet

set_option maxRecDepth 20000 in
/-- Every character of the alphabet reads back as its index. -/
theorem decode32_pbase32 : ∀ d < 32, decode32 (pbase32.getD d 0) = d := by
  decide

/-- `=` and the terminating NUL are outside the alphabet. -/
theorem decode32_pad : decode32 (asciiByte '=') = -1 ∧ decode32 0 = -1 := by
  decide

end alphabet

section encoder

/-- What the loop of `EncodeBase32` keeps after the bytes `xs`. The
characters written are those of the five-bit digits `ds`. The bits of `xs` are
those of `ds` followed by `8 * mode % 5` bits of value `L`, which sit at the top
of `left` unless the mode is zero. -/
structure EncodeInv (xs : List UInt8) (st : EncodeState) (ds : List Nat) (L : Nat) : Prop where
  mode_lt : st.mode < 5
  digits_lt : ∀ d ∈ ds, d < 32
  strRet_eq : st.strRet = ds.map (pbase32.getD · 0)
  length_eq : 8 * xs.length = 5 * ds.length + 8 * st.mode % 5
  held_lt : L < 2 ^ (8 * st.mode % 5)
  left_eq : st.mode ≠ 0 → st.left = L <<< (5 - 8 * st.mode % 5)
  value_eq : radixValue 256 (xs.map UInt8.toNat) = radixValue 32 ds * 2 ^ (8 * st.mode % 5) + L

/-- One byte keeps the invariant, in each of the five modes. -/
theorem EncodeInv.step {xs : List UInt8} {st : EncodeState} {ds : List Nat} {L : Nat}
    (h : EncodeInv xs st ds L) (b : UInt8) :
    ∃ ds' L', EncodeInv (xs ++ [b]) (encodeStep st b) ds' L' := by
  have hb : b.toNat < 256 := b.toNat_lt
  obtain ⟨hmode, hdig, hstr, hlen, hL, hleft, hval⟩ := h
  rcases (by omega : st.mode = 0 ∨ st.mode = 1 ∨ st.mode = 2 ∨ st.mode = 3 ∨ st.mode = 4) with
    h0 | h1 | h2 | h3 | h4
  · rw [h0] at hlen hL hval
    simp only [Nat.reduceMul, Nat.reduceMod, Nat.reducePow] at hlen hL hval
    have hst : encodeStep st b = ⟨1, (b.toNat % 8) <<< 2, st.strRet ++ [pbase32.getD (b.toNat / 8) 0]⟩ := by
      simp only [encodeStep, h0, and_eq_mod 3 (show 7 = 2 ^ 3 - 1 by norm_num), Nat.shiftRight_eq_div_pow,
        Nat.reducePow]
    rw [hst]
    refine ⟨ds ++ [b.toNat / 8], b.toNat % 8, ⟨show 1 < 5 by decide,
      List.forall_mem_append.mpr ⟨hdig, by simp; omega⟩, ?_, ?_, ?_, fun _ => by dsimp only, ?_⟩⟩
    · rw [hstr, List.map_append, List.map_singleton]
    · simp only [List.length_append, List.length_singleton]
      omega
    · simp only [Nat.reduceMul, Nat.reduceMod, Nat.reducePow]
      omega
    · rw [radixValue_bytes_append, hval, radixValue_append_singleton]
      simp only [Nat.reduceMul, Nat.reduceMod, Nat.reducePow]
      omega
  · rw [h1] at hlen hL hval
    simp only [Nat.reduceMul, Nat.reduceMod, Nat.reducePow] at hlen hL hval
    have hst : encodeStep st b = ⟨2, (b.toNat % 2) <<< 4,
        st.strRet ++ [pbase32.getD (L * 4 + b.toNat / 64) 0, pbase32.getD (b.toNat / 2 % 32) 0]⟩ := by
      simp only [encodeStep, h1, and_eq_mod 1 (show 1 = 2 ^ 1 - 1 by norm_num),
        and_eq_mod 5 (show 31 = 2 ^ 5 - 1 by norm_num), hleft (by omega), Nat.reduceMul, Nat.reduceMod, Nat.reduceSub]
      rw [shiftLeft_or_eq_add (by rw [Nat.shiftRight_eq_div_pow]; omega), Nat.shiftRight_eq_div_pow,
        Nat.shiftRight_eq_div_pow]
      simp only [Nat.reducePow]
    rw [hst]
    refine ⟨ds ++ [L * 4 + b.toNat / 64] ++ [b.toNat / 2 % 32], b.toNat % 2, ⟨show 2 < 5 by decide,
      List.forall_mem_append.mpr ⟨List.forall_mem_append.mpr ⟨hdig, by simp; omega⟩, by simp; omega⟩,
      ?_, ?_, ?_, fun _ => by dsimp only, ?_⟩⟩
    · rw [hstr, List.map_append, List.map_append, List.map_singleton, List.map_singleton, List.append_assoc]
      rfl
    · simp only [List.length_append, List.length_singleton]
      omega
    · simp only [Nat.reduceMul, Nat.reduceMod, Nat.reducePow]
      omega
    · rw [radixValue_bytes_append, hval, radixValue_append_singleton, radixValue_append_singleton]
      simp only [Nat.reduceMul, Nat.reduceMod, Nat.reducePow]
      omega
  · rw [h2] at hlen hL hval
    simp only [Nat.reduceMul, Nat.reduceMod, Nat.reducePow] at hlen hL hval
    have hst : encodeStep st b =
        ⟨3, (b.toNat % 16) <<< 1, st.strRet ++ [pbase32.getD (L * 16 + b.toNat / 16) 0]⟩ := by
      simp only [encodeStep, h2, and_eq_mod 4 (show 15 = 2 ^ 4 - 1 by norm_num), hleft (by omega), Nat.reduceMul, Nat.reduceMod, Nat.reduceSub]
      rw [shiftLeft_or_eq_add (by rw [Nat.shiftRight_eq_div_pow]; omega), Nat.shiftRight_eq_div_pow]
      simp only [Nat.reducePow]
    rw [hst]
    refine ⟨ds ++ [L * 16 + b.toNat / 16], b.toNat % 16, ⟨show 3 < 5 by decide,
      List.forall_mem_append.mpr ⟨hdig, by simp; omega⟩, ?_, ?_, ?_, fun _ => by dsimp only, ?_⟩⟩
    · rw [hstr, List.map_append, List.map_singleton]
    · simp only [List.length_append, List.length_singleton]
      omega
    · simp only [Nat.reduceMul, Nat.reduceMod, Nat.reducePow]
      omega
    · rw [radixValue_bytes_append, hval, radixValue_append_singleton]
      simp only [Nat.reduceMul, Nat.reduceMod, Nat.reducePow]
      omega
  · rw [h3] at hlen hL hval
    simp only [Nat.reduceMul, Nat.reduceMod, Nat.reducePow] at hlen hL hval
    have hst : encodeStep st b = ⟨4, (b.toNat % 4) <<< 3,
        st.strRet ++ [pbase32.getD (L * 2 + b.toNat / 128) 0, pbase32.getD (b.toNat / 4 % 32) 0]⟩ := by
      simp only [encodeStep, h3, and_eq_mod 2 (show 3 = 2 ^ 2 - 1 by norm_num),
        and_eq_mod 5 (show 31 = 2 ^ 5 - 1 by norm_num), hleft (by omega), Nat.reduceMul, Nat.reduceMod, Nat.reduceSub]
      rw [shiftLeft_or_eq_add (by rw [Nat.shiftRight_eq_div_pow]; omega), Nat.shiftRight_eq_div_pow,
        Nat.shiftRight_eq_div_pow]
      simp only [Nat.reducePow]
    rw [hst]
    refine ⟨ds ++ [L * 2 + b.toNat / 128] ++ [b.toNat / 4 % 32], b.toNat % 4, ⟨show 4 < 5 by decide,
      List.forall_mem_append.mpr ⟨List.forall_mem_append.mpr ⟨hdig, by simp; omega⟩, by simp; omega⟩,
      ?_, ?_, ?_, fun _ => by dsimp only, ?_⟩⟩
    · rw [hstr, List.map_append, List.map_append, List.map_singleton, List.map_singleton, List.append_assoc]
      rfl
    · simp only [List.length_append, List.length_singleton]
      omega
    · simp only [Nat.reduceMul, Nat.reduceMod, Nat.reducePow]
      omega
    · rw [radixValue_bytes_append, hval, radixValue_append_singleton, radixValue_append_singleton]
      simp only [Nat.reduceMul, Nat.reduceMod, Nat.reducePow]
      omega
  · rw [h4] at hlen hL hval
    simp only [Nat.reduceMul, Nat.reduceMod, Nat.reducePow] at hlen hL hval
    have hst : encodeStep st b =
        ⟨0, st.left, st.strRet ++ [pbase32.getD (L * 8 + b.toNat / 32) 0, pbase32.getD (b.toNat % 32) 0]⟩ := by
      simp only [encodeStep, h4, and_eq_mod 5 (show 31 = 2 ^ 5 - 1 by norm_num), hleft (by omega), Nat.reduceMul, Nat.reduceMod, Nat.reduceSub]
      rw [shiftLeft_or_eq_add (by rw [Nat.shiftRight_eq_div_pow]; omega), Nat.shiftRight_eq_div_pow]
      simp only [Nat.reducePow]
    rw [hst]
    refine ⟨ds ++ [L * 8 + b.toNat / 32] ++ [b.toNat % 32], 0, ⟨show 0 < 5 by decide,
      List.forall_mem_append.mpr ⟨List.forall_mem_append.mpr ⟨hdig, by simp; omega⟩, by simp; omega⟩,
      ?_, ?_, show 0 < 2 ^ (8 * 0 % 5) by decide, fun h => absurd rfl h, ?_⟩⟩
    · rw [hstr, List.map_append, List.map_append, List.map_singleton, List.map_singleton, List.append_assoc]
      rfl
    · simp only [List.length_append, List.length_singleton]
      omega
    · rw [radixValue_bytes_append, hval, radixValue_append_singleton, radixValue_append_singleton]
      simp only [Nat.reduceMul, Nat.reduceMod, Nat.reducePow, Nat.mul_one, Nat.add_zero]
      omega

/-- The loop of `EncodeBase32` keeps the invariant over all the bytes. -/
theorem encode_run (xs : List UInt8) : ∃ ds L, EncodeInv xs (xs.foldl encodeStep ⟨0, 0, []⟩) ds L := by
  induction xs using List.reverseRecOn with
  | nil => exact ⟨[], 0, ⟨show 0 < 5 by decide, by simp, rfl, rfl, show 0 < 2 ^ (8 * 0 % 5) by decide,
      fun h => absurd rfl h, rfl⟩⟩
  | append_singleton xs b ih =>
    obtain ⟨ds, L, h⟩ := ih
    rw [List.foldl_append, List.foldl_cons, List.foldl_nil]
    exact h.step b

/-- `EncodeBase32` writes the characters of five-bit digits `E`, whose bits are
those of the bytes followed by `p` zero bits, and then `k` signs `=`, for one of
the five pairs `(p, k)` of the modes. -/
theorem encodeBase32_eq (xs : List UInt8) :
    ∃ (E : List Nat) (p k : Nat), (∀ d ∈ E, d < 32) ∧ 5 * E.length = 8 * xs.length + p ∧
      radixValue 32 E = radixValue 256 (xs.map UInt8.toNat) * 2 ^ p ∧
      encodeBase32 xs = E.map (pbase32.getD · 0) ++ List.replicate k (asciiByte '=') ∧
      (p, k) ∈ [(0, 0), (2, 6), (4, 4), (1, 3), (3, 1)] := by
  obtain ⟨ds, L, hmode, hdig, hstr, hlen, hL, hleft, hval⟩ := encode_run xs
  generalize hst : xs.foldl encodeStep ⟨0, 0, []⟩ = st at hmode hstr hlen hL hleft hval
  have henc : encodeBase32 xs =
      if st.mode ≠ 0 then
        st.strRet ++ [pbase32.getD st.left 0] ++ List.replicate (nPadding.getD st.mode 0) (asciiByte '=')
      else st.strRet := by
    rw [encodeBase32, hst]
  have hlast : ∀ {h : Nat}, st.mode ≠ 0 → 8 * st.mode % 5 = h → 0 < h → h < 5 →
      encodeBase32 xs = (ds ++ [L * 2 ^ (5 - h)]).map (pbase32.getD · 0) ++
        List.replicate (nPadding.getD st.mode 0) (asciiByte '=') ∧
      radixValue 32 (ds ++ [L * 2 ^ (5 - h)]) = radixValue 256 (xs.map UInt8.toNat) * 2 ^ (5 - h) := by
    intro h hne hh _ h5
    refine ⟨?_, ?_⟩
    · rw [henc, if_pos hne, hstr, hleft hne, hh, Nat.shiftLeft_eq, List.map_append, List.map_singleton]
    · rw [radixValue_append_singleton, hval, hh]
      have hpow : (32 : Nat) = 2 ^ h * 2 ^ (5 - h) := by rw [← pow_add, Nat.add_sub_cancel' h5.le]; rfl
      rw [hpow]
      ring
  rcases (by omega : st.mode = 0 ∨ st.mode = 1 ∨ st.mode = 2 ∨ st.mode = 3 ∨ st.mode = 4) with
    h0 | h1 | h2 | h3 | h4
  · rw [h0] at hlen hL hval
    have hL0 : L = 0 := by simpa using hL
    refine ⟨ds, 0, 0, hdig, by omega, by rw [hval, hL0]; simp, ?_, by simp⟩
    rw [henc, if_neg (by rw [h0]; decide), hstr, List.replicate_zero, List.append_nil]
  · obtain ⟨hout, hv⟩ := hlast (by omega) (by rw [h1]) (by decide) (by decide)
    rw [h1] at hlen hL
    refine ⟨_, 2, 6, List.forall_mem_append.mpr ⟨hdig, by simp at hL ⊢; omega⟩, by simp; omega, hv,
      by rw [hout, h1]; rfl, by simp⟩
  · obtain ⟨hout, hv⟩ := hlast (by omega) (by rw [h2]) (by decide) (by decide)
    rw [h2] at hlen hL
    refine ⟨_, 4, 4, List.forall_mem_append.mpr ⟨hdig, by simp at hL ⊢; omega⟩, by simp; omega, hv,
      by rw [hout, h2]; rfl, by simp⟩
  · obtain ⟨hout, hv⟩ := hlast (by omega) (by rw [h3]) (by decide) (by decide)
    rw [h3] at hlen hL
    refine ⟨_, 1, 3, List.forall_mem_append.mpr ⟨hdig, by simp at hL ⊢; omega⟩, by simp; omega, hv,
      by rw [hout, h3]; rfl, by simp⟩
  · obtain ⟨hout, hv⟩ := hlast (by omega) (by rw [h4]) (by decide) (by decide)
    rw [h4] at hlen hL
    refine ⟨_, 3, 1, List.forall_mem_append.mpr ⟨hdig, by simp at hL ⊢; omega⟩, by simp; omega, hv,
      by rw [hout, h4]; rfl, by simp⟩

end encoder

section decoder

/-- What the loop of `DecodeBase32` keeps after the five-bit digits `ds`: the
bits of `ds` are those of the bytes written followed by `5 * mode % 8` bits of
value `L`, which are `left` unless the mode is zero. -/
structure DecodeInv (ds : List Nat) (st : DecodeState) (L : Nat) : Prop where
  mode_eq : st.mode = ds.length % 8
  length_eq : 5 * ds.length = 8 * st.vchRet.length + 5 * st.mode % 8
  held_lt : L < 2 ^ (5 * st.mode % 8)
  left_eq : st.mode ≠ 0 → st.left = L
  value_eq : radixValue 32 ds = radixValue 256 (st.vchRet.map UInt8.toNat) * 2 ^ (5 * st.mode % 8) + L

/-- A step that writes a byte: the `h` held bits `L`, then the top `5 - h'` bits
of the digit `d`, whose low `h'` bits are held next. -/
theorem DecodeInv.step_write {ds : List Nat} {st st' : DecodeState} {L d : Nat} (h h' : Nat)
    (hinv : DecodeInv ds st L) (hd : d < 32) (hh : 5 * st.mode % 8 = h) (hh' : 5 * st'.mode % 8 = h')
    (hmode' : st'.mode = (ds.length + 1) % 8) (hsum : h + 5 = 8 + h')
    (hout : st'.vchRet = st.vchRet ++ [(L * 2 ^ (5 - h') + d / 2 ^ h').toUInt8])
    (hleft' : st'.mode ≠ 0 → st'.left = d % 2 ^ h') :
    DecodeInv (ds ++ [d]) st' (d % 2 ^ h') := by
  obtain ⟨-, hlen, hL, -, hval⟩ := hinv
  rw [hh] at hlen hL hval
  have hC : 2 ^ (5 - h') * 2 ^ h' = 32 := by rw [← pow_add, show 5 - h' + h' = 5 by omega]; rfl
  have hA : 2 ^ h * 32 = 256 * 2 ^ h' := by
    rw [show (32 : Nat) = 2 ^ 5 by rfl, show (256 : Nat) = 2 ^ 8 by rfl, ← pow_add, ← pow_add, hsum,
      Nat.add_comm]
  have hbyte : L * 2 ^ (5 - h') + d / 2 ^ h' < 256 := by
    have hdiv : d / 2 ^ h' < 2 ^ (5 - h') := by
      rw [Nat.div_lt_iff_lt_mul (Nat.two_pow_pos h'), hC]
      exact hd
    have hL' : (L + 1) * 2 ^ (5 - h') ≤ 256 := by
      have h256 : 2 ^ h * 2 ^ (5 - h') = 256 := by rw [← pow_add, show h + (5 - h') = 8 by omega]; rfl
      rw [← h256]
      exact Nat.mul_le_mul_right _ hL
    rw [Nat.add_mul, Nat.one_mul] at hL'
    omega
  refine ⟨by rw [hmode', List.length_append, List.length_singleton], ?_, ?_, hleft', ?_⟩
  · rw [hh', hout]
    simp only [List.length_append, List.length_singleton]
    omega
  · rw [hh']
    exact Nat.mod_lt _ (Nat.two_pow_pos h')
  · rw [hh', radixValue_append_singleton, hout, radixValue_push hbyte, hval]
    calc (radixValue 256 (st.vchRet.map UInt8.toNat) * 2 ^ h + L) * 32 + d
        = radixValue 256 (st.vchRet.map UInt8.toNat) * (2 ^ h * 32) + L * 32 + d := by ring
      _ = radixValue 256 (st.vchRet.map UInt8.toNat) * (256 * 2 ^ h') + L * (2 ^ (5 - h') * 2 ^ h') +
          (d / 2 ^ h' * 2 ^ h' + d % 2 ^ h') := by rw [hA, hC, Nat.div_add_mod']
      _ = (radixValue 256 (st.vchRet.map UInt8.toNat) * 256 + (L * 2 ^ (5 - h') + d / 2 ^ h')) * 2 ^ h' +
          d % 2 ^ h' := by ring

/-- A step that writes no byte: the digit `d` joins the `h` held bits `L`. -/
theorem DecodeInv.step_hold {ds : List Nat} {st st' : DecodeState} {L d : Nat} (h : Nat)
    (hinv : DecodeInv ds st L) (hd : d < 32) (hh : 5 * st.mode % 8 = h) (hh' : 5 * st'.mode % 8 = h + 5)
    (hmode' : st'.mode = (ds.length + 1) % 8) (hout : st'.vchRet = st.vchRet)
    (hleft' : st'.left = L * 32 + d) :
    DecodeInv (ds ++ [d]) st' (L * 32 + d) := by
  obtain ⟨-, hlen, hL, -, hval⟩ := hinv
  rw [hh] at hlen hL hval
  refine ⟨by rw [hmode', List.length_append, List.length_singleton], ?_, ?_, fun _ => hleft', ?_⟩
  · rw [hh', hout]
    simp only [List.length_append, List.length_singleton]
    omega
  · rw [hh', pow_add]
    show L * 32 + d < 2 ^ h * 32
    omega
  · rw [hh', radixValue_append_singleton, hout, hval, pow_add]
    show _ = _ * (2 ^ h * 32) + _
    ring

/-- One digit keeps the invariant, in each of the eight modes. -/
theorem DecodeInv.step {ds : List Nat} {st : DecodeState} {L : Nat} (hinv : DecodeInv ds st L) {d : Nat}
    (hd : d < 32) : ∃ L', DecodeInv (ds ++ [d]) (decodeStep st d) L' := by
  have hmode := hinv.mode_eq
  have hleft := hinv.left_eq
  rcases (by omega : st.mode = 0 ∨ st.mode = 1 ∨ st.mode = 2 ∨ st.mode = 3 ∨ st.mode = 4 ∨ st.mode = 5 ∨
      st.mode = 6 ∨ st.mode = 7) with h0 | h1 | h2 | h3 | h4 | h5 | h6 | h7
  · have hL0 : L = 0 := by simpa [h0] using hinv.held_lt
    have hst : decodeStep st d = ⟨1, d, st.vchRet⟩ := by simp only [decodeStep, h0]
    rw [hst]
    exact ⟨_, hinv.step_hold 0 hd (by rw [h0]) (by dsimp only) (by dsimp only; omega) rfl (by rw [hL0]; dsimp only; omega)⟩
  · have hst : decodeStep st d = ⟨2, d % 4, st.vchRet ++ [(L * 8 + d / 4).toUInt8]⟩ := by
      simp only [decodeStep, h1, hleft (by omega), and_eq_mod 2 (show 3 = 2 ^ 2 - 1 by norm_num)]
      rw [shiftLeft_or_eq_add (by rw [Nat.shiftRight_eq_div_pow]; omega), Nat.shiftRight_eq_div_pow]
      simp only [Nat.reducePow]
    rw [hst]
    exact ⟨_, hinv.step_write 5 2 hd (by rw [h1]) (by dsimp only) (by dsimp only; omega) rfl rfl (fun _ => rfl)⟩
  · have hst : decodeStep st d = ⟨3, L * 32 + d, st.vchRet⟩ := by
      simp only [decodeStep, h2, hleft (by omega)]
      rw [shiftLeft_or_eq_add (show d < 2 ^ 5 by omega)]
      simp only [Nat.reducePow]
    rw [hst]
    exact ⟨_, hinv.step_hold 2 hd (by rw [h2]) (by dsimp only) (by dsimp only; omega) rfl rfl⟩
  · have hst : decodeStep st d = ⟨4, d % 16, st.vchRet ++ [(L * 2 + d / 16).toUInt8]⟩ := by
      simp only [decodeStep, h3, hleft (by omega), and_eq_mod 4 (show 15 = 2 ^ 4 - 1 by norm_num)]
      rw [shiftLeft_or_eq_add (by rw [Nat.shiftRight_eq_div_pow]; omega), Nat.shiftRight_eq_div_pow]
      simp only [Nat.reducePow]
    rw [hst]
    exact ⟨_, hinv.step_write 7 4 hd (by rw [h3]) (by dsimp only) (by dsimp only; omega) rfl rfl (fun _ => rfl)⟩
  · have hst : decodeStep st d = ⟨5, d % 2, st.vchRet ++ [(L * 16 + d / 2).toUInt8]⟩ := by
      simp only [decodeStep, h4, hleft (by omega), and_eq_mod 1 (show 1 = 2 ^ 1 - 1 by norm_num)]
      rw [shiftLeft_or_eq_add (by rw [Nat.shiftRight_eq_div_pow]; omega), Nat.shiftRight_eq_div_pow]
      simp only [Nat.reducePow]
    rw [hst]
    exact ⟨_, hinv.step_write 4 1 hd (by rw [h4]) (by dsimp only) (by dsimp only; omega) rfl rfl (fun _ => rfl)⟩
  · have hst : decodeStep st d = ⟨6, L * 32 + d, st.vchRet⟩ := by
      simp only [decodeStep, h5, hleft (by omega)]
      rw [shiftLeft_or_eq_add (show d < 2 ^ 5 by omega)]
      simp only [Nat.reducePow]
    rw [hst]
    exact ⟨_, hinv.step_hold 1 hd (by rw [h5]) (by dsimp only) (by dsimp only; omega) rfl rfl⟩
  · have hst : decodeStep st d = ⟨7, d % 8, st.vchRet ++ [(L * 4 + d / 8).toUInt8]⟩ := by
      simp only [decodeStep, h6, hleft (by omega), and_eq_mod 3 (show 7 = 2 ^ 3 - 1 by norm_num)]
      rw [shiftLeft_or_eq_add (by rw [Nat.shiftRight_eq_div_pow]; omega), Nat.shiftRight_eq_div_pow]
      simp only [Nat.reducePow]
    rw [hst]
    exact ⟨_, hinv.step_write 6 3 hd (by rw [h6]) (by dsimp only) (by dsimp only; omega) rfl rfl (fun _ => rfl)⟩
  · have hst : decodeStep st d = ⟨0, st.left, st.vchRet ++ [(L * 32 + d).toUInt8]⟩ := by
      simp only [decodeStep, h7, hleft (by omega)]
      rw [shiftLeft_or_eq_add (show d < 2 ^ 5 by omega)]
      simp only [Nat.reducePow]
    rw [hst]
    exact ⟨_, hinv.step_write 3 0 hd (by rw [h7]) (by dsimp only) (by dsimp only; omega) rfl
      (by rw [Nat.pow_zero, Nat.div_one]; rfl) (fun h => absurd rfl h)⟩

/-- The decoder keeps the invariant over any digits. -/
theorem decode_run (ds : List Nat) (hds : ∀ d ∈ ds, d < 32) :
    ∃ L, DecodeInv ds (ds.foldl decodeStep ⟨0, 0, []⟩) L := by
  induction ds using List.reverseRecOn with
  | nil => exact ⟨0, ⟨rfl, rfl, show 0 < 2 ^ (5 * 0 % 8) by decide, fun h => absurd rfl h, rfl⟩⟩
  | append_singleton ds d ih =>
    obtain ⟨L, h⟩ := ih fun x hx => hds x (List.mem_append_left _ hx)
    rw [List.foldl_append, List.foldl_cons, List.foldl_nil]
    exact h.step (hds d (List.mem_append_right _ (List.mem_singleton_self d)))

/-- The loop reads the characters of digits, one step each. -/
theorem decodeLoop_digits (ds : List Nat) (hds : ∀ d ∈ ds, d < 32) (st : DecodeState) (rest : List UInt8) :
    decodeLoop st (ds.map (pbase32.getD · 0) ++ rest) = decodeLoop (ds.foldl decodeStep st) rest := by
  induction ds generalizing st with
  | nil => rfl
  | cons d ds ih =>
    have hd : decode32 (pbase32.getD d 0) = d := decode32_pbase32 d (hds d List.mem_cons_self)
    rw [List.map_cons, List.cons_append, decodeLoop, if_neg (by rw [hd]; omega), hd, Int.toNat_natCast,
      List.foldl_cons, ih (fun x hx => hds x (List.mem_cons_of_mem d hx))]

/-- Decoding the characters of five-bit digits that carry the bytes `xs`
followed by `p < 8` zero bits, up to a character outside the alphabet, gives
`xs`, in a mode that holds `p` bits, all zero. -/
theorem decodeLoop_encoding {E : List Nat} {xs : List UInt8} {p : Nat} (hE : ∀ d ∈ E, d < 32)
    (hlen : 5 * E.length = 8 * xs.length + p) (hp : p < 8)
    (hval : radixValue 32 E = radixValue 256 (xs.map UInt8.toNat) * 2 ^ p) {rest : List UInt8}
    (hrest : ∀ st, decodeLoop st rest = (st, rest)) :
    ∃ st, decodeLoop ⟨0, 0, []⟩ (E.map (pbase32.getD · 0) ++ rest) = (st, rest) ∧ st.vchRet = xs ∧
      st.mode < 8 ∧ 5 * st.mode % 8 = p ∧ (st.mode ≠ 0 → st.left = 0) := by
  obtain ⟨L, hmode, hlen', hL, hleft, hval'⟩ := decode_run E hE
  refine ⟨E.foldl decodeStep ⟨0, 0, []⟩, by rw [decodeLoop_digits E hE, hrest], ?_⟩
  generalize E.foldl decodeStep ⟨0, 0, []⟩ = st at hmode hlen' hL hleft hval'
  obtain ⟨hmap, hpr, hL0⟩ := regroup_eq (toNat_lt_of_mem_bytes xs) (toNat_lt_of_mem_bytes st.vchRet) hp
    (show 5 * st.mode % 8 < 8 by omega) (by simp only [List.length_map]; omega) hL (hval.symm.trans hval')
  exact ⟨(eq_of_map_toNat_eq hmap).symm, by omega, hpr.symm, fun h => (hleft h).trans hL0⟩

/-- Padding stops the loop. -/
theorem decodeLoop_pad (st : DecodeState) (k : Nat) :
    decodeLoop st (List.replicate k (asciiByte '=')) = (st, List.replicate k (asciiByte '=')) := by
  cases k with
  | zero => rfl
  | succ k => rw [List.replicate_succ, decodeLoop, if_pos decode32_pad.1]

end decoder

/-- Decoding the encoding of any bytes gives them back and leaves `*pfInvalid`
false: the loop stops at the padding, holding zero bits in the mode whose
padding the encoder wrote. -/
theorem decodeBase32_encodeBase32 (xs : List UInt8) : decodeBase32 (encodeBase32 xs) = (xs, false) := by
  obtain ⟨E, p, k, hE, hlen, hval, henc, hpk⟩ := encodeBase32_eq xs
  have hp : p < 8 := by simp at hpk; omega
  obtain ⟨st, hloop, hout, hmode, hmp, hleft⟩ :=
    decodeLoop_encoding hE hlen hp hval fun st => decodeLoop_pad st k
  simp only [List.mem_cons, Prod.mk.injEq, List.not_mem_nil, or_false] at hpk
  rcases hpk with ⟨rfl, rfl⟩ | ⟨rfl, rfl⟩ | ⟨rfl, rfl⟩ | ⟨rfl, rfl⟩ | ⟨rfl, rfl⟩
  · have h0 : st.mode = 0 := by omega
    simp only [henc, decodeBase32, hloop, h0, hout]
  · have h2 : st.mode = 2 := by omega
    have hpad : ((List.replicate 6 (asciiByte '=')).getD 0 0 != asciiByte '=' ||
        (List.replicate 6 (asciiByte '=')).getD 1 0 != asciiByte '=' ||
        (List.replicate 6 (asciiByte '=')).getD 2 0 != asciiByte '=' ||
        (List.replicate 6 (asciiByte '=')).getD 3 0 != asciiByte '=' ||
        (List.replicate 6 (asciiByte '=')).getD 4 0 != asciiByte '=' ||
        (List.replicate 6 (asciiByte '=')).getD 5 0 != asciiByte '=' ||
        decode32 ((List.replicate 6 (asciiByte '=')).getD 6 0) != -1) = false := by decide
    simp only [henc, decodeBase32, hloop, h2, hout, hleft (by omega), bne_self_eq_false, Bool.false_or, hpad]
  · have h4 : st.mode = 4 := by omega
    have hpad : ((List.replicate 4 (asciiByte '=')).getD 0 0 != asciiByte '=' ||
        (List.replicate 4 (asciiByte '=')).getD 1 0 != asciiByte '=' ||
        (List.replicate 4 (asciiByte '=')).getD 2 0 != asciiByte '=' ||
        (List.replicate 4 (asciiByte '=')).getD 3 0 != asciiByte '=' ||
        decode32 ((List.replicate 4 (asciiByte '=')).getD 4 0) != -1) = false := by decide
    simp only [henc, decodeBase32, hloop, h4, hout, hleft (by omega), bne_self_eq_false, Bool.false_or, hpad]
  · have h5 : st.mode = 5 := by omega
    have hpad : ((List.replicate 3 (asciiByte '=')).getD 0 0 != asciiByte '=' ||
        (List.replicate 3 (asciiByte '=')).getD 1 0 != asciiByte '=' ||
        (List.replicate 3 (asciiByte '=')).getD 2 0 != asciiByte '=' ||
        decode32 ((List.replicate 3 (asciiByte '=')).getD 3 0) != -1) = false := by decide
    simp only [henc, decodeBase32, hloop, h5, hout, hleft (by omega), bne_self_eq_false, Bool.false_or, hpad]
  · have h7 : st.mode = 7 := by omega
    have hpad : ((List.replicate 1 (asciiByte '=')).getD 0 0 != asciiByte '=' ||
        decode32 ((List.replicate 1 (asciiByte '=')).getD 1 0) != -1) = false := by decide
    simp only [henc, decodeBase32, hloop, h7, hout, hleft (by omega), bne_self_eq_false, Bool.false_or, hpad]

end Base32

/-- Base64 and Base32 round-trip: for every byte string, decoding its
encoding gives it back and leaves `*pfInvalid` false. -/
theorem base64_base32_roundtrip :
    (∀ x : List UInt8, Base64.decodeBase64 (Base64.encodeBase64 x) = (x, false)) ∧
      ∀ x : List UInt8, Base32.decodeBase32 (Base32.encodeBase32 x) = (x, false) :=
  ⟨Base64.decodeBase64_encodeBase64, Base32.decodeBase32_encodeBase32⟩

end Membercoin
