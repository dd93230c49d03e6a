import Membercoin.Lib.ByteCodec
import Membercoin.Lib.Radix

/-!
# Base64 (utilstrencodings.cpp)

`EncodeBase64` reads bytes one at a time and writes a character of `pbase64`
for each six bits. In `mode` it holds back `2 * mode` bits, shifted to the top
of the next character, in `left`. At the end it writes what is held back and
pads the output to a multiple of four characters with `=`. `DecodeBase64` reads
characters up to the first one outside the alphabet (the terminating NUL or a
`=`). It writes a byte for each eight bits and holds back `6 * mode % 8` bits.
At the end it sets `*pfInvalid` unless the bits held back are zero and the
padding that the mode calls for follows.

Both loops keep one number: the bits read so far are the bits written,
followed by the bits held back (`EncodeInv`, `DecodeInv`), with one step lemma
for each mode. `Radix.regroup_eq` then says that decoding the characters of
an encoding gives the bytes back (`decodeBase64_encodeBase64`).

A C string is a list of bytes. Past its end, the decoder reads the
terminating NUL.
-/

namespace Membercoin

open ByteCodec Radix

namespace Base64

section model

/-- `pbase64`, the alphabet. -/
def pbase64 : List UInt8 := asciiBytes "ABCDEFGHIJKLMNOPQRSTUVWXYZabcdefghijklmnopqrstuvwxyz0123456789+/"

/-- The state of the loop of `EncodeBase64`. -/
structure EncodeState where
  mode : Nat
  left : Nat
  strRet : List UInt8

/-- One byte `enc` in the loop of `EncodeBase64`. -/
def encodeStep (st : EncodeState) (enc : UInt8) : EncodeState :=
  let enc := enc.toNat
  match st.mode with
  | 0 => ⟨1, (enc &&& 3) <<< 4, st.strRet ++ [pbase64.getD (enc >>> 2) 0]⟩
  | 1 => ⟨2, (enc &&& 15) <<< 2, st.strRet ++ [pbase64.getD (st.left ||| enc >>> 4) 0]⟩
  | 2 => ⟨0, st.left, st.strRet ++ [pbase64.getD (st.left ||| enc >>> 6) 0, pbase64.getD (enc &&& 63) 0]⟩
  | _ => st

/-- `EncodeBase64(pch, len)`. -/
def encodeBase64 (bytes : List UInt8) : List UInt8 :=
  let st := bytes.foldl encodeStep ⟨0, 0, []⟩
  if st.mode ≠ 0 then
    st.strRet ++ [pbase64.getD st.left 0] ++ asciiBytes "=" ++ (if st.mode = 1 then asciiBytes "=" else [])
  else st.strRet

/-- `decode64_table`. -/
def decode64Table : List Int :=
  [-1, -1, -1, -1, -1, -1, -1, -1, -1, -1, -1, -1, -1, -1, -1, -1, -1, -1, -1, -1, -1, -1, -1, -1,
    -1, -1, -1, -1, -1, -1, -1, -1, -1, -1, -1, -1, -1, -1, -1, -1, -1, -1, -1, 62, -1, -1, -1, 63,
    52, 53, 54, 55, 56, 57, 58, 59, 60, 61, -1, -1, -1, -1, -1, -1, -1, 0, 1, 2, 3, 4, 5, 6,
    7, 8, 9, 10, 11, 12, 13, 14, 15, 16, 17, 18, 19, 20, 21, 22, 23, 24, 25, -1, -1, -1, -1, -1,
    -1, 26, 27, 28, 29, 30, 31, 32, 33, 34, 35, 36, 37, 38, 39, 40, 41, 42, 43, 44, 45, 46, 47, 48,
    49, 50, 51, -1, -1, -1, -1, -1, -1, -1, -1, -1, -1, -1, -1, -1, -1, -1, -1, -1, -1, -1, -1, -1,
    -1, -1, -1, -1, -1, -1, -1, -1, -1, -1, -1, -1, -1, -1, -1, -1, -1, -1, -1, -1, -1, -1, -1, -1,
    -1, -1, -1, -1, -1, -1, -1, -1, -1, -1, -1, -1, -1, -1, -1, -1, -1, -1, -1, -1, -1, -1, -1, -1,
    -1, -1, -1, -1, -1, -1, -1, -1, -1, -1, -1, -1, -1, -1, -1, -1, -1, -1, -1, -1, -1, -1, -1, -1,
    -1, -1, -1, -1, -1, -1, -1, -1, -1, -1, -1, -1, -1, -1, -1, -1, -1, -1, -1, -1, -1, -1, -1, -1,
    -1, -1, -1, -1, -1, -1, -1, -1, -1, -1, -1, -1, -1, -1, -1, -1]

/-- `decode64_table[(unsigned char)c]`. -/
def decode64 (c : UInt8) : Int := decode64Table.getD c.toNat (-1)

/-- The state of the loop of `DecodeBase64`. -/
structure DecodeState where
  mode : Nat
  left : Nat
  vchRet : List UInt8

/-- One character of value `dec` in the loop of `DecodeBase64`; `push_back`
stores the low byte of an `int`. -/
def decodeStep (st : DecodeState) (dec : Nat) : DecodeState :=
  match st.mode with
  | 0 => ⟨1, dec, st.vchRet⟩
  | 1 => ⟨2, dec &&& 15, st.vchRet ++ [(st.left <<< 2 ||| dec >>> 4).toUInt8]⟩
  | 2 => ⟨3, dec &&& 3, st.vchRet ++ [(st.left <<< 4 ||| dec >>> 2).toUInt8]⟩
  | 3 => ⟨0, st.left, st.vchRet ++ [(st.left <<< 6 ||| dec).toUInt8]⟩
  | _ => st

/-- The loop of `DecodeBase64` up to the first character whose entry is `-1`:
the state, and the characters from that one on. -/
def decodeLoop (st : DecodeState) : List UInt8 → DecodeState × List UInt8
  | [] => (st, [])
  | c :: p => if decode64 c = -1 then (st, c :: p) else decodeLoop (decodeStep st (decode64 c).toNat) p

/-- `DecodeBase64(p, pfInvalid)`: the bytes, and what is stored in `*pfInvalid`. -/
def decodeBase64 (p : List UInt8) : List UInt8 × Bool :=
  let r := decodeLoop ⟨0, 0, []⟩ p
  let st := r.1
  let p := r.2
  let fInvalid :=
    match st.mode with
    | 0 => false
    | 1 => true
    | 2 => st.left != 0 || p.getD 0 0 != asciiByte '=' || p.getD 1 0 != asciiByte '=' ||
        decode64 (p.getD 2 0) != -1
    | 3 => st.left != 0 || p.getD 0 0 != asciiByte '=' || decode64 (p.getD 1 0) != -1
    | _ => false
  (st.vchRet, fInvalid)

example : encodeBase64 (asciiBytes "fooba") = asciiBytes "Zm9vYmE=" := by decide

example : decodeBase64 (asciiBytes "Zm9vYg==") = (asciiBytes "foob", false) := by decide

end model

section alphabet

set_option maxRecDepth 20000 in
/-- Every character of the alphabet reads back as its index. -/
theorem decode64_pbase64 : ∀ d < 64, decode64 (pbase64.getD d 0) = d := by
  decide

/-- `=` and the terminating NUL are outside the alphabet. -/
theorem decode64_pad : decode64 (asciiByte '=') = -1 ∧ decode64 0 = -1 := by
  decide

end alphabet

section encoder

/-- What the loop of `EncodeBase64` keeps after the bytes `xs`. The
characters written are those of the six-bit digits `ds`. The bits of `xs` are
those of `ds` followed by `2 * mode` bits of value `L`, which sit at the top of
`left` unless the mode is zero. -/
structure EncodeInv (xs : List UInt8) (st : EncodeState) (ds : List Nat) (L : Nat) : Prop where
  mode_lt : st.mode < 3
  digits_lt : ∀ d ∈ ds, d < 64
  strRet_eq : st.strRet = ds.map (pbase64.getD · 0)
  length_eq : 8 * xs.length = 6 * ds.length + 2 * st.mode
  held_lt : L < 2 ^ (2 * st.mode)
  left_eq : st.mode ≠ 0 → st.left = L <<< (6 - 2 * st.mode)
  value_eq : radixValue 256 (xs.map UInt8.toNat) = radixValue 64 ds * 2 ^ (2 * st.mode) + L

/-- One byte keeps the invariant, in each of the three modes. -/
theorem EncodeInv.step {xs : List UInt8} {st : EncodeState} {ds : List Nat} {L : Nat}
    (h : EncodeInv xs st ds L) (b : UInt8) :
    ∃ ds' L', EncodeInv (xs ++ [b]) (encodeStep st b) ds' L' := by
  have hb : b.toNat < 256 := b.toNat_lt
  obtain ⟨hmode, hdig, hstr, hlen, hL, hleft, hval⟩ := h
  rcases (by omega : st.mode = 0 ∨ st.mode = 1 ∨ st.mode = 2) with h0 | h1 | h2
  · rw [h0] at hlen hL hval
    have hst : encodeStep st b = ⟨1, (b.toNat % 4) <<< 4, st.strRet ++ [pbase64.getD (b.toNat / 4) 0]⟩ := by
      simp only [encodeStep, h0, and_eq_mod 2 (show 3 = 2 ^ 2 - 1 by norm_num), Nat.shiftRight_eq_div_pow,
        Nat.reducePow]
    rw [hst]
    refine ⟨ds ++ [b.toNat / 4], b.toNat % 4, ⟨show 1 < 3 by decide, List.forall_mem_append.mpr ⟨hdig, by simp; omega⟩, ?_, ?_, ?_,
      fun _ => rfl, ?_⟩⟩
    · rw [hstr, List.map_append, List.map_singleton]
    · simp only [List.length_append, List.length_singleton]
      omega
    · simp only [Nat.reducePow, Nat.reduceMul]
      omega
    · rw [radixValue_bytes_append, hval, radixValue_append_singleton]
      simp only [Nat.reducePow, Nat.reduceMul]
      omega
  · rw [h1] at hlen hL hval
    have hleft' : st.left = L * 16 := by rw [hleft (by omega), h1, Nat.shiftLeft_eq]
    have hst : encodeStep st b =
        ⟨2, (b.toNat % 16) <<< 2, st.strRet ++ [pbase64.getD (L * 16 + b.toNat / 16) 0]⟩ := by
      simp only [encodeStep, h1, and_eq_mod 4 (show 15 = 2 ^ 4 - 1 by norm_num), hleft (by omega)]
      rw [shiftLeft_or_eq_add (by rw [Nat.shiftRight_eq_div_pow]; omega), Nat.shiftRight_eq_div_pow]
      simp only [Nat.reducePow, Nat.reduceMul, Nat.reduceSub]
    rw [hst]
    simp only [Nat.reducePow, Nat.reduceMul] at hL hval
    refine ⟨ds ++ [L * 16 + b.toNat / 16], b.toNat % 16, ⟨show 2 < 3 by decide,
      List.forall_mem_append.mpr ⟨hdig, by simp; omega⟩, ?_, ?_, ?_, fun _ => rfl, ?_⟩⟩
    · rw [hstr, List.map_append, List.map_singleton]
    · simp only [List.length_append, List.length_singleton]
      omega
    · simp only [Nat.reducePow, Nat.reduceMul]
      omega
    · rw [radixValue_bytes_append, hval, radixValue_append_singleton]
      simp only [Nat.reducePow, Nat.reduceMul]
      omega
  · rw [h2] at hlen hL hval
    simp only [Nat.reducePow, Nat.reduceMul] at hL hval
    have hst : encodeStep st b =
        ⟨0, st.left, st.strRet ++ [pbase64.getD (L * 4 + b.toNat / 64) 0, pbase64.getD (b.toNat % 64) 0]⟩ := by
      simp only [encodeStep, h2, and_eq_mod 6 (show 63 = 2 ^ 6 - 1 by norm_num), hleft (by omega)]
      rw [shiftLeft_or_eq_add (by rw [Nat.shiftRight_eq_div_pow]; omega), Nat.shiftRight_eq_div_pow]
      simp only [Nat.reducePow, Nat.reduceMul, Nat.reduceSub]
    rw [hst]
    refine ⟨ds ++ [L * 4 + b.toNat / 64] ++ [b.toNat % 64], 0, ⟨show 0 < 3 by decide,
      List.forall_mem_append.mpr ⟨List.forall_mem_append.mpr ⟨hdig, by simp; omega⟩, by simp; omega⟩, ?_, ?_, show 0 < 2 ^ (2 * 0) by decide,
      fun h => absurd rfl h, ?_⟩⟩
    · rw [hstr, List.map_append, List.map_append, List.map_singleton, List.map_singleton, List.append_assoc]
      rfl
    · simp only [List.length_append, List.length_singleton]
      omega
    · rw [radixValue_bytes_append, hval, radixValue_append_singleton, radixValue_append_singleton]
      simp only [Nat.reducePow, Nat.reduceMul, Nat.mul_one, Nat.add_zero]
      omega

/-- The loop of `EncodeBase64` keeps the invariant over all the bytes. -/
theorem encode_run (xs : List UInt8) : ∃ ds L, EncodeInv xs (xs.foldl encodeStep ⟨0, 0, []⟩) ds L := by
  induction xs using List.reverseRecOn with
  | nil => exact ⟨[], 0, ⟨show 0 < 3 by decide, by simp, rfl, rfl, show 0 < 2 ^ (2 * 0) by decide,
      fun h => absurd rfl h, rfl⟩⟩
  | append_singleton xs b ih =>
    obtain ⟨ds, L, h⟩ := ih
    rw [List.foldl_append, List.foldl_cons, List.foldl_nil]
    exact h.step b

/-- `EncodeBase64` writes the characters of six-bit digits `E`, whose bits are
those of the bytes followed by `p` zero bits, and then the padding: none when
`p = 0`, `==` when `p = 4`, `=` when `p = 2`. -/
theorem encodeBase64_eq (xs : List UInt8) :
    ∃ (E : List Nat) (p : Nat), (∀ d ∈ E, d < 64) ∧ 6 * E.length = 8 * xs.length + p ∧
      radixValue 64 E = radixValue 256 (xs.map UInt8.toNat) * 2 ^ p ∧
      (p = 0 ∧ encodeBase64 xs = E.map (pbase64.getD · 0) ++ [] ∨
        p = 4 ∧ encodeBase64 xs = E.map (pbase64.getD · 0) ++ asciiBytes "==" ∨
        p = 2 ∧ encodeBase64 xs = E.map (pbase64.getD · 0) ++ asciiBytes "=") := by
  obtain ⟨ds, L, hmode, hdig, hstr, hlen, hL, hleft, hval⟩ := encode_run xs
  generalize hst : xs.foldl encodeStep ⟨0, 0, []⟩ = st at hmode hstr hlen hL hleft hval
  have henc : encodeBase64 xs =
      if st.mode ≠ 0 then
        st.strRet ++ [pbase64.getD st.left 0] ++ asciiBytes "=" ++ (if st.mode = 1 then asciiBytes "=" else [])
      else st.strRet := by
    rw [encodeBase64, hst]
  rcases (by omega : st.mode = 0 ∨ st.mode = 1 ∨ st.mode = 2) with h0 | h1 | h2
  · rw [h0] at hlen hL hval
    have hL0 : L = 0 := by simpa using hL
    refine ⟨ds, 0, hdig, by omega, by rw [hval, hL0]; simp, .inl ⟨rfl, ?_⟩⟩
    rw [henc, if_neg (by rw [h0]; decide), hstr, List.append_nil]
  · rw [h1] at hlen hL hval
    simp only [Nat.reducePow, Nat.reduceMul] at hL hval
    have hleft' : st.left = L * 16 := by rw [hleft (by omega), h1, Nat.shiftLeft_eq]
    refine ⟨ds ++ [L * 16], 4, List.forall_mem_append.mpr ⟨hdig, by simp; omega⟩, by simp; omega, ?_,
      .inr (.inl ⟨rfl, ?_⟩)⟩
    · rw [radixValue_append_singleton, hval]
      ring
    · have hpad : asciiBytes "=" ++ asciiBytes "=" = asciiBytes "==" := by decide
      rw [henc, if_pos (by rw [h1]; decide), if_pos h1, hstr, hleft', List.map_append, List.map_singleton,
        List.append_assoc, hpad]
  · rw [h2] at hlen hL hval
    simp only [Nat.reducePow, Nat.reduceMul] at hL hval
    have hleft' : st.left = L * 4 := by rw [hleft (by omega), h2, Nat.shiftLeft_eq]
    refine ⟨ds ++ [L * 4], 2, List.forall_mem_append.mpr ⟨hdig, by simp; omega⟩, by simp; omega, ?_,
      .inr (.inr ⟨rfl, ?_⟩)⟩
    · rw [radixValue_append_singleton, hval]
      ring
    · rw [henc, if_pos (by rw [h2]; decide), if_neg (by rw [h2]; decide), hstr, hleft', List.map_append,
        List.map_singleton, List.append_nil]

end encoder

section decoder

/-- What the loop of `DecodeBase64` keeps after the six-bit digits `ds`: the
bits of `ds` are those of the bytes written followed by `6 * mode % 8` bits of
value `L`, which are `left` unless the mode is zero. -/
structure DecodeInv (ds : List Nat) (st : DecodeState) (L : Nat) : Prop where
  mode_eq : st.mode = ds.length % 4
  length_eq : 6 * ds.length = 8 * st.vchRet.length + 6 * st.mode % 8
  held_lt : L < 2 ^ (6 * st.mode % 8)
  left_eq : st.mode ≠ 0 → st.left = L
  value_eq : radixValue 64 ds = radixValue 256 (st.vchRet.map UInt8.toNat) * 2 ^ (6 * st.mode % 8) + L

/-- One digit keeps the invariant, in each of the four modes. -/
theorem DecodeInv.step {ds : List Nat} {st : DecodeState} {L : Nat} (h : DecodeInv ds st L) {d : Nat}
    (hd : d < 64) : ∃ L', DecodeInv (ds ++ [d]) (decodeStep st d) L' := by
  obtain ⟨hmode, hlen, hL, hleft, hval⟩ := h
  have hds : (ds ++ [d]).length = ds.length + 1 := by simp
  rcases (by omega : st.mode = 0 ∨ st.mode = 1 ∨ st.mode = 2 ∨ st.mode = 3) with h0 | h1 | h2 | h3
  · rw [h0] at hlen hL hval
    have hL0 : L = 0 := by simpa using hL
    have hst : decodeStep st d = ⟨1, d, st.vchRet⟩ := by simp only [decodeStep, h0]
    rw [hst]
    refine ⟨d, ⟨by dsimp only; omega, by dsimp only; omega, show d < 2 ^ (6 * 1 % 8) by simpa using hd,
      fun _ => rfl, ?_⟩⟩
    rw [radixValue_append_singleton, hval, hL0]
    simp
  · rw [h1] at hlen hL hval
    simp only [Nat.reduceMul, Nat.reduceMod, Nat.reducePow] at hlen hL hval
    have hst : decodeStep st d = ⟨2, d % 16, st.vchRet ++ [(L * 4 + d / 16).toUInt8]⟩ := by
      simp only [decodeStep, h1, hleft (by omega), and_eq_mod 4 (show 15 = 2 ^ 4 - 1 by norm_num)]
      rw [shiftLeft_or_eq_add (by rw [Nat.shiftRight_eq_div_pow]; omega), Nat.shiftRight_eq_div_pow]
      simp only [Nat.reducePow]
    rw [hst]
    refine ⟨d % 16, ⟨by dsimp only; omega, by simp; omega, show d % 16 < 2 ^ (6 * 2 % 8) by simp; omega,
      fun _ => rfl, ?_⟩⟩
    rw [radixValue_append_singleton, radixValue_push (by omega), hval]
    simp only [Nat.reduceMul, Nat.reduceMod, Nat.reducePow]
    omega
  · rw [h2] at hlen hL hval
    simp only [Nat.reduceMul, Nat.reduceMod, Nat.reducePow] at hlen hL hval
    have hst : decodeStep st d = ⟨3, d % 4, st.vchRet ++ [(L * 16 + d / 4).toUInt8]⟩ := by
      simp only [decodeStep, h2, hleft (by omega), and_eq_mod 2 (show 3 = 2 ^ 2 - 1 by norm_num)]
      rw [shiftLeft_or_eq_add (by rw [Nat.shiftRight_eq_div_pow]; omega), Nat.shiftRight_eq_div_pow]
      simp only [Nat.reducePow]
    rw [hst]
    refine ⟨d % 4, ⟨by dsimp only; omega, by simp; omega, show d % 4 < 2 ^ (6 * 3 % 8) by simp; omega,
      fun _ => rfl, ?_⟩⟩
    rw [radixValue_append_singleton, radixValue_push (by omega), hval]
    simp only [Nat.reduceMul, Nat.reduceMod, Nat.reducePow]
    omega
  · rw [h3] at hlen hL hval
    simp only [Nat.reduceMul, Nat.reduceMod, Nat.reducePow] at hlen hL hval
    have hst : decodeStep st d = ⟨0, st.left, st.vchRet ++ [(L * 64 + d).toUInt8]⟩ := by
      simp only [decodeStep, h3, hleft (by omega)]
      rw [shiftLeft_or_eq_add (show d < 2 ^ 6 by omega)]
      simp only [Nat.reducePow]
    rw [hst]
    refine ⟨0, ⟨by dsimp only; omega, by simp; omega, show 0 < 2 ^ (6 * 0 % 8) by decide,
      fun h => absurd rfl h, ?_⟩⟩
    rw [radixValue_append_singleton, radixValue_push (by omega), hval]
    simp only [Nat.reduceMul, Nat.reduceMod, Nat.reducePow]
    omega

/-- The decoder keeps the invariant over any digits. -/
theorem decode_run (ds : List Nat) (hds : ∀ d ∈ ds, d < 64) :
    ∃ L, DecodeInv ds (ds.foldl decodeStep ⟨0, 0, []⟩) L := by
  induction ds using List.reverseRecOn with
  | nil => exact ⟨0, ⟨rfl, rfl, show 0 < 2 ^ (6 * 0 % 8) by decide, fun h => absurd rfl h, rfl⟩⟩
  | append_singleton ds d ih =>
    obtain ⟨L, h⟩ := ih fun x hx => hds x (List.mem_append_left _ hx)
    rw [List.foldl_append, List.foldl_cons, List.foldl_nil]
    exact h.step (hds d (List.mem_append_right _ (List.mem_singleton_self d)))

/-- The loop reads the characters of digits, one step each. -/
theorem decodeLoop_digits (ds : List Nat) (hds : ∀ d ∈ ds, d < 64) (st : DecodeState) (rest : List UInt8) :
    decodeLoop st (ds.map (pbase64.getD · 0) ++ rest) = decodeLoop (ds.foldl decodeStep st) rest := by
  induction ds generalizing st with
  | nil => rfl
  | cons d ds ih =>
    have hd : decode64 (pbase64.getD d 0) = d := decode64_pbase64 d (hds d List.mem_cons_self)
    rw [List.map_cons, List.cons_append, decodeLoop, if_neg (by rw [hd]; omega), hd, Int.toNat_natCast,
      List.foldl_cons, ih (fun x hx => hds x (List.mem_cons_of_mem d hx))]

/-- Decoding the characters of six-bit digits that carry the bytes `xs`
followed by `p < 8` zero bits, up to a character outside the alphabet, gives
`xs`, in a mode that holds `p` bits, all zero. -/
theorem decodeLoop_encoding {E : List Nat} {xs : List UInt8} {p : Nat} (hE : ∀ d ∈ E, d < 64)
    (hlen : 6 * E.length = 8 * xs.length + p) (hp : p < 8)
    (hval : radixValue 64 E = radixValue 256 (xs.map UInt8.toNat) * 2 ^ p) {rest : List UInt8}
    (hrest : ∀ st, decodeLoop st rest = (st, rest)) :
    ∃ st, decodeLoop ⟨0, 0, []⟩ (E.map (pbase64.getD · 0) ++ rest) = (st, rest) ∧ st.vchRet = xs ∧
      st.mode < 4 ∧ 6 * st.mode % 8 = p ∧ (st.mode ≠ 0 → st.left = 0) := by
  obtain ⟨L, hmode, hlen', hL, hleft, hval'⟩ := decode_run E hE
  refine ⟨E.foldl decodeStep ⟨0, 0, []⟩, by rw [decodeLoop_digits E hE, hrest], ?_⟩
  generalize E.foldl decodeStep ⟨0, 0, []⟩ = st at hmode hlen' hL hleft hval'
  obtain ⟨hmap, hpr, hL0⟩ := regroup_eq (toNat_lt_of_mem_bytes xs) (toNat_lt_of_mem_bytes st.vchRet) hp
    (show 6 * st.mode % 8 < 8 by omega) (by simp only [List.length_map]; omega) hL (hval.symm.trans hval')
  exact ⟨(eq_of_map_toNat_eq hmap).symm, by omega, hpr.symm, fun h => (hleft h).trans hL0⟩

/-- The end of the string and the padding stop the loop. -/
theorem decodeLoop_pad (st : DecodeState) :
    decodeLoop st [] = (st, []) ∧ decodeLoop st (asciiBytes "==") = (st, asciiBytes "==") ∧
      decodeLoop st (asciiBytes "=") = (st, asciiBytes "=") := by
  have h2 : asciiBytes "==" = asciiByte '=' :: asciiBytes "=" := by decide
  have h1 : asciiBytes "=" = [asciiByte '='] := by decide
  refine ⟨rfl, ?_, ?_⟩
  · rw [h2, decodeLoop, if_pos decode64_pad.1]
  · rw [h1, decodeLoop, if_pos decode64_pad.1]

end decoder

/-- Decoding the encoding of any bytes gives them back and leaves `*pfInvalid`
false: the loop stops at the padding, holding zero bits in the mode whose
padding the encoder wrote. -/
theorem decodeBase64_encodeBase64 (xs : List UInt8) : decodeBase64 (encodeBase64 xs) = (xs, false) := by
  obtain ⟨E, p, hE, hlen, hval, hcases⟩ := encodeBase64_eq xs
  rcases hcases with ⟨rfl, henc⟩ | ⟨rfl, henc⟩ | ⟨rfl, henc⟩
  · obtain ⟨st, hloop, hout, hmode, hp, -⟩ :=
      decodeLoop_encoding hE hlen (by decide) hval fun st => (decodeLoop_pad st).1
    have h0 : st.mode = 0 := by omega
    simp only [henc, decodeBase64, hloop, h0, hout]
  · obtain ⟨st, hloop, hout, hmode, hp, hleft⟩ :=
      decodeLoop_encoding hE hlen (by decide) hval fun st => (decodeLoop_pad st).2.1
    have h2 : st.mode = 2 := by omega
    have hpad : ((asciiBytes "==").getD 0 0 != asciiByte '=' || (asciiBytes "==").getD 1 0 != asciiByte '=' ||
        decode64 ((asciiBytes "==").getD 2 0) != -1) = false := by decide
    simp only [henc, decodeBase64, hloop, h2, hout, hleft (by omega), bne_self_eq_false, Bool.false_or, hpad]
  · obtain ⟨st, hloop, hout, hmode, hp, hleft⟩ :=
      decodeLoop_encoding hE hlen (by decide) hval fun st => (decodeLoop_pad st).2.2
    have h3 : st.mode = 3 := by omega
    have hpad : ((asciiBytes "=").getD 0 0 != asciiByte '=' || decode64 ((asciiBytes "=").getD 1 0) != -1) =
        false := by decide
    simp only [henc, decodeBase64, hloop, h3, hout, hleft (by omega), bne_self_eq_false, Bool.false_or, hpad]

end Base64

end Membercoin
