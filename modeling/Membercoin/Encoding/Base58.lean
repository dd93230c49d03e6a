import Membercoin.Lib.ByteCodec
import Membercoin.Lib.Radix

/-!
# Base58 (base58.cpp)

`encodeBase58` and `decodeBase58` convert between bytes and the 58 characters
of `pszBase58` through a big-endian buffer of fixed width, on which each input
digit does `buf = buf * base + digit` (`Radix.mulAdd`); leading zero bytes and
leading '1's are counted apart. The buffers are sized `len * 138 / 100 + 1` and
`len * 733 / 1000 + 1`; `pow_256_le` and `pow_58_le` say that these sizes hold
every value of `len` digits, so the `assert(carry == 0)` of either loop never
fails. The counts of leading zeros and ones are `int`s: past `2 ^ 31 - 1`
their increment is undefined, so the round trips are stated for inputs shorter
than `2 ^ 31`.

A string pointer is the list of bytes from it to the end of the string, and
reading past that end gives the terminator (`deref`); a zero byte inside the
list ends the string as it does in C. `decodeBase58` returns `none` for
undefined behaviour or a failed assertion, `some none` where the source returns
false (and leaves `vch` unchanged), and `some (some vch)` where it returns true.
-/

namespace Membercoin.Base58

open ByteCodec Radix

/-- All alphanumeric characters except for "0", "I", "O", and "l". -/
def pszBase58 : List UInt8 := asciiBytes "123456789ABCDEFGHJKLMNPQRSTUVWXYZabcdefghijkmnopqrstuvwxyz"

/-- isspace in the C locale. -/
def isspace (c : UInt8) : Bool := c == 32 || (9 ≤ c && c ≤ 13)

/-- The byte a string pointer points at. -/
def deref (psz : List UInt8) : UInt8 := psz.headD 0

def strlen (psz : List UInt8) : Nat := (psz.takeWhile (· != 0)).length

/-- Skip and count the leading copies of `c` into the `int` counter `zeroes`;
`none` where the increment overflows. -/
def countLeading (c : UInt8) : List UInt8 → Nat → Option (Nat × List UInt8)
  | [], zeroes => some (zeroes, [])
  | x :: xs, zeroes =>
    if x = c then
      if zeroes + 1 < 2 ^ 31 then countLeading c xs (zeroes + 1) else none
    else some (zeroes, x :: xs)

/-- The characters of `DecodeBase58` up to a space or the end: each is added to
`b256` by `b256 = b256 * 58 + ch`. `some none` is a character outside the
alphabet; otherwise the buffer and the rest of the string. -/
def decodeLoop : List UInt8 → List Nat → Option (Option (List Nat × List UInt8))
  | [], b256 => some (some (b256, []))
  | c :: psz, b256 =>
    if c != 0 && !isspace c then
      match pszBase58.idxOf? c with
      | none => some none
      | some ch =>
        let r := mulAdd 256 58 b256 ch
        if r.2 = 0 then decodeLoop psz r.1 else none
    else some (some (b256, c :: psz))

def decodeBase58 (psz : List UInt8) : Option (Option (List UInt8)) := do
  let psz := psz.dropWhile isspace
  let (zeroes, psz) ← countLeading (asciiByte '1') psz 0
  -- strlen(psz) * 733 is size_t arithmetic
  let b256 := List.replicate (strlen psz * 733 % 2 ^ 64 / 1000 + 1) 0
  match ← decodeLoop psz b256 with
  | none => pure none
  | some (b256, psz) =>
    if deref (psz.dropWhile isspace) != 0 then pure none
    else pure (some (List.replicate zeroes 0 ++ (b256.dropWhile (· == 0)).map Nat.toUInt8))

/-- The bytes of `EncodeBase58` after the leading zeros: each is added to `b58`
by `b58 = b58 * 256 + ch`. -/
def encodeLoop : List UInt8 → List Nat → Option (List Nat)
  | [], b58 => some b58
  | c :: pbegin, b58 =>
    let r := mulAdd 58 256 b58 c.toNat
    if r.2 = 0 then encodeLoop pbegin r.1 else none

/-- The bytes from `pbegin` to `pend`; the overload on a vector passes its bytes. -/
def encodeBase58 (bytes : List UInt8) : Option (List UInt8) := do
  let (zeroes, pbegin) ← countLeading 0 bytes 0
  -- (pend - pbegin) * 138 is signed ptrdiff_t arithmetic
  if 2 ^ 63 ≤ pbegin.length * 138 then none
  let b58 ← encodeLoop pbegin (List.replicate (pbegin.length * 138 / 100 + 1) 0)
  pure (List.replicate zeroes (asciiByte '1') ++ (b58.dropWhile (· == 0)).map (pszBase58.getD · 0))

example : encodeBase58 [0x51, 0x6b, 0x6f, 0xcd, 0x0f] = some (asciiBytes "ABnLTmg") := by decide
example : encodeBase58 [0, 0x61] = some (asciiBytes "12g") := by decide
example : decodeBase58 (asciiBytes " 12g ") = some (some [0, 0x61]) := by decide
example : decodeBase58 (asciiBytes "1 1") = some none := by decide

/-! ## The alphabet -/

theorem length_pszBase58 : pszBase58.length = 58 := by decide

theorem nodup_pszBase58 : pszBase58.Nodup := by decide

theorem idxOf?_pszBase58 : ∀ d < 58, pszBase58.idxOf? (pszBase58.getD d 0) = some d := by
  intro d hd
  have hlt : d < pszBase58.length := by rw [length_pszBase58]; exact hd
  rw [List.getD_eq_getElem _ _ hlt, List.idxOf?_eq_some_iff]
  refine ⟨hlt, rfl, fun j hj heq => ?_⟩
  have hjd := (List.Nodup.getElem_inj_iff nodup_pszBase58).mp heq
  omega

theorem pszBase58_zero : pszBase58.getD 0 0 = asciiByte '1' := by decide

/-- The characters of the alphabet are neither the terminator nor spaces. -/
theorem pszBase58_char : ∀ d < 58, pszBase58.getD d 0 ≠ 0 ∧ isspace (pszBase58.getD d 0) = false := by decide

theorem lt_of_idxOf?_eq_some {c : UInt8} {ch : Nat} (h : pszBase58.idxOf? c = some ch) : ch < 58 := by
  obtain ⟨hlt, -⟩ := List.idxOf?_eq_some_iff.mp h
  rwa [length_pszBase58] at hlt

/-- A string over the alphabet is the characters of its digits. -/
theorem exists_digits {s : List UInt8} (hs : ∀ c ∈ s, c ∈ pszBase58) :
    ∃ ds : List Nat, (∀ d ∈ ds, d < 58) ∧ s = ds.map (pszBase58.getD · 0) := by
  induction s with
  | nil => exact ⟨[], by simp, rfl⟩
  | cons c s ih =>
    obtain ⟨ds, hds, rfl⟩ := ih fun x hx => hs x (List.mem_cons_of_mem c hx)
    obtain ⟨d, hd, hcd⟩ := List.getElem_of_mem (hs c List.mem_cons_self)
    rw [length_pszBase58] at hd
    refine ⟨d :: ds, ?_, ?_⟩
    · intro x hx
      rcases List.mem_cons.mp hx with rfl | hx
      · exact hd
      · exact hds x hx
    · rw [List.map_cons, List.getD_eq_getElem _ _ (by rw [length_pszBase58]; exact hd), hcd]

/-! ## Buffer sizes

`log 58 / log 256 < 733 / 1000` and `log 256 / log 58 < 138 / 100`, each
from one comparison of powers at a fraction below the bound:
`58 ^ 71 ≤ 256 ^ 52` and `256 ^ 8 ≤ 58 ^ 11`. -/

theorem pow_58_le (n : Nat) : 58 ^ n ≤ 256 ^ (n * 733 / 1000 + 1) :=
  pow_le_pow_of_pow_le (p := 71) (q := 52) (by norm_num) (by norm_num) (by norm_num) (by norm_num)
    (by norm_num) n

theorem pow_256_le (n : Nat) : 256 ^ n ≤ 58 ^ (n * 138 / 100 + 1) :=
  pow_le_pow_of_pow_le (p := 8) (q := 11) (by norm_num) (by norm_num) (by norm_num) (by norm_num)
    (by norm_num) n

/-! ## The leading counts -/

theorem countLeading_replicate (c : UInt8) (n : Nat) (rest : List UInt8) {zeroes : Nat} (hz : zeroes < 2 ^ 31) :
    countLeading c (List.replicate n c ++ rest) zeroes =
      if zeroes + n < 2 ^ 31 then countLeading c rest (zeroes + n) else none := by
  induction n generalizing zeroes with
  | zero => rw [List.replicate_zero, List.nil_append, Nat.add_zero, if_pos hz]
  | succ n ih =>
    rw [List.replicate_succ, List.cons_append, countLeading, if_pos rfl]
    by_cases h : zeroes + 1 < 2 ^ 31
    · rw [if_pos h, ih h, Nat.add_right_comm, Nat.add_assoc]
    · rw [if_neg h, if_neg (by omega)]

theorem countLeading_of_head {c : UInt8} {rest : List UInt8} (h : rest.head? ≠ some c) (zeroes : Nat) :
    countLeading c rest zeroes = some (zeroes, rest) := by
  cases rest with
  | nil => rfl
  | cons x xs =>
    have hx : x ≠ c := fun hx => h (by rw [hx, List.head?_cons])
    rw [countLeading, if_neg hx]

/-- The count of an input shorter than `2 ^ 31`: its leading copies of `c`. -/
theorem countLeading_eq {c : UInt8} {n : Nat} {rest : List UInt8} (h : rest.head? ≠ some c)
    (hn : n < 2 ^ 31) : countLeading c (List.replicate n c ++ rest) 0 = some (n, rest) := by
  rw [countLeading_replicate c n rest (by norm_num), Nat.zero_add, if_pos hn, countLeading_of_head h]

theorem countLeading_ne_none (c : UInt8) (l : List UInt8) (hl : l.length < 2 ^ 31) :
    ∃ zeroes rest, countLeading c l 0 = some (zeroes, rest) ∧ rest.length ≤ l.length := by
  obtain ⟨n, rest, rfl, h⟩ := exists_eq_replicate_append c l
  rw [List.length_append, List.length_replicate] at hl ⊢
  exact ⟨n, rest, countLeading_eq h (by omega), by omega⟩

/-! ## The conversion loops -/

theorem strlen_cons {c : UInt8} (hc : c ≠ 0) (psz : List UInt8) : strlen (c :: psz) = strlen psz + 1 := by
  simp [strlen, hc]

theorem strlen_le (psz : List UInt8) : strlen psz ≤ psz.length := (List.takeWhile_prefix _).length_le

/-- Whatever the string, `decodeLoop` never fails its assertion while the buffer
has room for `strlen psz` more digits. -/
theorem decodeLoop_ne_none (psz : List UInt8) (b256 : List Nat)
    (hroom : (radixValue 256 b256 + 1) * 58 ^ strlen psz ≤ 256 ^ b256.length) : decodeLoop psz b256 ≠ none := by
  induction psz generalizing b256 with
  | nil => simp [decodeLoop]
  | cons c psz ih =>
    rw [decodeLoop]
    by_cases hc : (c != 0 && !isspace c) = true
    · have hc0 : c ≠ 0 := by simpa using (Bool.and_eq_true _ _).mp hc |>.1
      rw [if_pos hc]
      cases hch : pszBase58.idxOf? c with
      | none => simp
      | some ch =>
        rw [strlen_cons hc0] at hroom
        obtain ⟨hcarry, -, hroom'⟩ := mulAdd_room (lt_of_idxOf?_eq_some hch) hroom
        dsimp only
        rw [if_pos hcarry]
        exact ih _ (by rwa [length_mulAdd])
    · rw [if_neg hc]
      simp

/-- On the characters of digits `ds`, `decodeLoop` reads them all and adds their
value to the buffer. -/
theorem decodeLoop_digits {ds : List Nat} (hds : ∀ d ∈ ds, d < 58) (b256 : List Nat)
    (hbuf : ∀ d ∈ b256, d < 256) (hroom : (radixValue 256 b256 + 1) * 58 ^ ds.length ≤ 256 ^ b256.length) :
    ∃ buf, decodeLoop (ds.map (pszBase58.getD · 0)) b256 = some (some (buf, [])) ∧
      buf.length = b256.length ∧ (∀ d ∈ buf, d < 256) ∧
      radixValue 256 buf = radixValue 256 b256 * 58 ^ ds.length + radixValue 58 ds := by
  induction ds generalizing b256 with
  | nil => exact ⟨b256, rfl, rfl, hbuf, by simp⟩
  | cons d ds ih =>
    have hd : d < 58 := hds d List.mem_cons_self
    obtain ⟨hcarry, hvalue, hroom'⟩ := mulAdd_room hd hroom
    obtain ⟨buf, hloop, hlen, hlt, hv⟩ :=
      ih (fun x hx => hds x (List.mem_cons_of_mem d hx)) _ (mulAdd_lt (by norm_num) b256 d)
        (by rwa [length_mulAdd])
    have hc := pszBase58_char d hd
    refine ⟨buf, ?_, by rw [hlen, length_mulAdd], hlt, ?_⟩
    · have hcond : (pszBase58.getD d 0 != 0 && !isspace (pszBase58.getD d 0)) = true :=
        Bool.and_eq_true_iff.mpr ⟨bne_iff_ne.mpr hc.1, by rw [hc.2]; rfl⟩
      rw [List.map_cons, decodeLoop, if_pos hcond, idxOf?_pszBase58 d hd]
      dsimp only
      rw [if_pos hcarry, hloop]
    · rw [hv, hvalue, radixValue_cons, List.length_cons, pow_succ]
      ring

/-- On every byte string, `encodeLoop` adds its value to a buffer with room for it. -/
theorem encodeLoop_bytes (bytes : List UInt8) (b58 : List Nat) (hbuf : ∀ d ∈ b58, d < 58)
    (hroom : (radixValue 58 b58 + 1) * 256 ^ bytes.length ≤ 58 ^ b58.length) :
    ∃ buf, encodeLoop bytes b58 = some buf ∧ buf.length = b58.length ∧ (∀ d ∈ buf, d < 58) ∧
      radixValue 58 buf = radixValue 58 b58 * 256 ^ bytes.length + radixValue 256 (bytes.map UInt8.toNat) := by
  induction bytes generalizing b58 with
  | nil => exact ⟨b58, rfl, rfl, hbuf, by simp⟩
  | cons c bytes ih =>
    obtain ⟨hcarry, hvalue, hroom'⟩ := mulAdd_room c.toNat_lt hroom
    obtain ⟨buf, hloop, hlen, hlt, hv⟩ := ih _ (mulAdd_lt (by norm_num) b58 c.toNat) (by rwa [length_mulAdd])
    refine ⟨buf, ?_, by rw [hlen, length_mulAdd], hlt, ?_⟩
    · rw [encodeLoop, if_pos hcarry, hloop]
    · rw [hv, hvalue, List.map_cons, radixValue_cons, List.length_cons, List.length_map, pow_succ]
      ring

/-! ## The two directions -/

theorem dropWhile_isspace {s : List UInt8} (h : ∀ c ∈ s, isspace c = false) : s.dropWhile isspace = s :=
  List.dropWhile_eq_self_iff.mpr fun hl => by simp [h _ (List.getElem_mem hl)]

/-- The leading zero digits of a buffer are dropped; what is left has the same digits. -/
theorem dropWhile_zero_lt {buf : List Nat} {b : Nat} (h : ∀ d ∈ buf, d < b) : ∀ d ∈ buf.dropWhile (· == 0), d < b :=
  fun d hd => h d ((List.dropWhile_suffix _).subset hd)

/-- The characters of digits that do not start with the digit zero do not start with '1'. -/
theorem head?_map_getD {ds : List Nat} (hds : ∀ d ∈ ds, d < 58) (hhead : ds.head? ≠ some 0) :
    (ds.map (pszBase58.getD · 0)).head? ≠ some (asciiByte '1') := by
  cases ds with
  | nil => simp
  | cons d ds =>
    rw [List.map_cons, List.head?_cons, ne_eq, Option.some_inj, ← pszBase58_zero]
    intro h
    apply hhead
    have h0 := idxOf?_pszBase58 d (hds d List.mem_cons_self)
    rw [h, idxOf?_pszBase58 0 (by norm_num), Option.some_inj] at h0
    rw [List.head?_cons, ← h0]

/-- `decodeBase58` on the characters of digits `ds` without a leading zero digit,
after `zeroes` characters '1': `zeroes` zero bytes and the bytes of the value. -/
theorem decodeBase58_eq {zeroes : Nat} {ds : List Nat} (hz : zeroes < 2 ^ 31) (hds : ∀ d ∈ ds, d < 58)
    (hhead : ds.head? ≠ some 0) (hlen : ds.length < 2 ^ 33) :
    ∃ w : List Nat, decodeBase58 (List.replicate zeroes (asciiByte '1') ++ ds.map (pszBase58.getD · 0)) =
        some (some (List.replicate zeroes 0 ++ w.map Nat.toUInt8)) ∧
      (∀ d ∈ w, d < 256) ∧ w.head? ≠ some 0 ∧ w.length ≤ ds.length * 733 / 1000 + 1 ∧
      radixValue 256 w = radixValue 58 ds := by
  have hchars : ∀ c ∈ ds.map (pszBase58.getD · 0), c ≠ 0 ∧ isspace c = false := by
    intro c hc
    obtain ⟨d, hd, rfl⟩ := List.mem_map.mp hc
    exact pszBase58_char d (hds d hd)
  have hspace : ∀ c ∈ List.replicate zeroes (asciiByte '1') ++ ds.map (pszBase58.getD · 0), isspace c = false := by
    intro c hc
    rcases List.mem_append.mp hc with hc | hc
    · rw [List.eq_of_mem_replicate hc, ← pszBase58_zero]
      exact (pszBase58_char 0 (by norm_num)).2
    · exact (hchars c hc).2
  have hstrlen : strlen (ds.map (pszBase58.getD · 0)) = ds.length := by
    rw [strlen, List.takeWhile_eq_self_iff.mpr (fun c hc => by simpa using (hchars c hc).1), List.length_map]
  have hsize : ds.length * 733 % 2 ^ 64 = ds.length * 733 := Nat.mod_eq_of_lt (by omega)
  obtain ⟨buf, hloop, hbuflen, hlt, hv⟩ := decodeLoop_digits hds (List.replicate (ds.length * 733 / 1000 + 1) 0)
    (fun d hd => by rw [List.eq_of_mem_replicate hd]; norm_num)
    (by rw [radixValue_replicate_zero, Nat.zero_add, Nat.one_mul, List.length_replicate]; exact pow_58_le _)
  refine ⟨buf.dropWhile (· == 0), ?_, dropWhile_zero_lt hlt, head?_dropWhile_zero buf, ?_, ?_⟩
  · simp only [decodeBase58, dropWhile_isspace hspace, countLeading_eq (head?_map_getD hds hhead) hz,
      Option.bind_eq_bind, Option.bind_some, hstrlen, hsize, hloop]
    rfl
  · have := (List.dropWhile_suffix (fun d : Nat => d == 0) (l := buf)).length_le
    rw [List.length_replicate] at hbuflen
    omega
  · rw [radixValue_dropWhile_zero, hv, radixValue_replicate_zero, Nat.zero_mul, Nat.zero_add]

/-- `encodeBase58` on `zeroes` zero bytes followed by bytes `u` that do not start
with a zero: `zeroes` characters '1' and the characters of the value's digits. -/
theorem encodeBase58_eq {zeroes : Nat} {u : List UInt8} (hz : zeroes < 2 ^ 31) (hhead : u.head? ≠ some 0)
    (hlen : u.length < 2 ^ 32) :
    ∃ ds : List Nat, encodeBase58 (List.replicate zeroes 0 ++ u) =
        some (List.replicate zeroes (asciiByte '1') ++ ds.map (pszBase58.getD · 0)) ∧
      (∀ d ∈ ds, d < 58) ∧ ds.head? ≠ some 0 ∧ ds.length ≤ u.length * 138 / 100 + 1 ∧
      radixValue 58 ds = radixValue 256 (u.map UInt8.toNat) := by
  obtain ⟨buf, hloop, hbuflen, hlt, hv⟩ := encodeLoop_bytes u (List.replicate (u.length * 138 / 100 + 1) 0)
    (fun d hd => by rw [List.eq_of_mem_replicate hd]; norm_num)
    (by rw [radixValue_replicate_zero, Nat.zero_add, Nat.one_mul, List.length_replicate]; exact pow_256_le _)
  refine ⟨buf.dropWhile (· == 0), ?_, dropWhile_zero_lt hlt, head?_dropWhile_zero buf, ?_, ?_⟩
  · have hsize : ¬ 2 ^ 63 ≤ u.length * 138 := by omega
    simp only [encodeBase58, countLeading_eq hhead hz, Option.bind_eq_bind, Option.bind_some, hsize, hloop]
    rfl
  · have := (List.dropWhile_suffix (fun d : Nat => d == 0) (l := buf)).length_le
    rw [List.length_replicate] at hbuflen
    omega
  · rw [radixValue_dropWhile_zero, hv, radixValue_replicate_zero, Nat.zero_mul, Nat.zero_add]

/-! ## Round trips -/

theorem decodeBase58_encodeBase58 (v : List UInt8) (hv : v.length < 2 ^ 31) :
    ∃ s, encodeBase58 v = some s ∧ decodeBase58 s = some (some v) := by
  obtain ⟨zeroes, u, rfl, hu⟩ := exists_eq_replicate_append (0 : UInt8) v
  rw [List.length_append, List.length_replicate] at hv
  obtain ⟨ds, henc, hds, hhead, hlen, hval⟩ := encodeBase58_eq (by omega : zeroes < 2 ^ 31) hu (by omega)
  obtain ⟨w, hdec, hw, hwhead, -, hwval⟩ := decodeBase58_eq (by omega : zeroes < 2 ^ 31) hds hhead (by omega)
  have hwu : w = u.map UInt8.toNat :=
    eq_of_radixValue_eq_of_head (by norm_num) hw (toNat_lt_of_mem_bytes u) hwhead (head?_map_toNat hu)
      (by rw [hwval, hval])
  refine ⟨_, henc, ?_⟩
  rw [hdec, hwu, map_toUInt8_toNat]

theorem encodeBase58_decodeBase58 (s : List UInt8) (hs : ∀ c ∈ s, c ∈ pszBase58) (hlen : s.length < 2 ^ 31) :
    ∃ v, decodeBase58 s = some (some v) ∧ encodeBase58 v = some s := by
  obtain ⟨ds₀, hds₀, rfl⟩ := exists_digits hs
  obtain ⟨zeroes, ds, rfl, hhead⟩ := exists_eq_replicate_append 0 ds₀
  have hds : ∀ d ∈ ds, d < 58 := fun d hd => hds₀ d (List.mem_append_right _ hd)
  rw [List.map_append, List.map_replicate, pszBase58_zero] at hlen ⊢
  rw [List.length_append, List.length_replicate, List.length_map] at hlen
  obtain ⟨w, hdec, hw, hwhead, hwlen, hwval⟩ := decodeBase58_eq (by omega : zeroes < 2 ^ 31) hds hhead (by omega)
  obtain ⟨ds', henc, hds', hhead', -, hval'⟩ :=
    encodeBase58_eq (by omega : zeroes < 2 ^ 31) (head?_map_toUInt8 hw hwhead) (by rw [List.length_map]; omega)
  have hdd : ds' = ds :=
    eq_of_radixValue_eq_of_head (by norm_num) hds' hds hhead' hhead (by rw [hval', map_toNat_toUInt8 hw, hwval])
  exact ⟨_, hdec, by rw [henc, hdd]⟩

/-- Whatever the string, `decodeBase58` has no undefined behaviour and no failed
assertion on strings shorter than `2 ^ 31`. -/
theorem decodeBase58_ne_none (psz : List UInt8) (hlen : psz.length < 2 ^ 31) : decodeBase58 psz ≠ none := by
  have hdrop := (List.dropWhile_suffix isspace (l := psz)).length_le
  obtain ⟨zeroes, rest, hcount, hrest⟩ := countLeading_ne_none (asciiByte '1') (psz.dropWhile isspace) (by omega)
  have hsize : strlen rest * 733 % 2 ^ 64 = strlen rest * 733 := by
    have := strlen_le rest
    exact Nat.mod_eq_of_lt (by omega)
  have hloop := decodeLoop_ne_none rest (List.replicate (strlen rest * 733 / 1000 + 1) 0)
    (by rw [radixValue_replicate_zero, Nat.zero_add, Nat.one_mul, List.length_replicate]; exact pow_58_le _)
  simp only [decodeBase58, hcount, Option.bind_eq_bind, Option.bind_some, hsize]
  cases h : decodeLoop rest (List.replicate (strlen rest * 733 / 1000 + 1) 0) with
  | none => exact absurd h hloop
  | some r =>
    rcases r with _ | ⟨b256, psz'⟩
    · simp
    · simp only [Option.bind_some]
      split <;> simp

theorem base58_roundtrip :
    (∀ v : List UInt8, v.length < 2 ^ 31 → ∃ s, encodeBase58 v = some s ∧ decodeBase58 s = some (some v)) ∧
      (∀ s : List UInt8, (∀ c ∈ s, c ∈ pszBase58) → s.length < 2 ^ 31 →
        ∃ v, decodeBase58 s = some (some v) ∧ encodeBase58 v = some s) ∧
      (∀ v : List UInt8, v.length < 2 ^ 31 → encodeBase58 v ≠ none) ∧
      ∀ psz : List UInt8, psz.length < 2 ^ 31 → decodeBase58 psz ≠ none := by
  refine ⟨decodeBase58_encodeBase58, encodeBase58_decodeBase58, fun v hv => ?_, decodeBase58_ne_none⟩
  obtain ⟨s, hs, -⟩ := decodeBase58_encodeBase58 v hv
  rw [hs]
  exact Option.some_ne_none s

theorem base58_roundtrip_leading_zero :
    ∃ s, encodeBase58 [0, 0x61] = some s ∧ decodeBase58 s = some (some [0, 0x61]) :=
  base58_roundtrip.1 [0, 0x61] (by decide)

/-- `2 ^ 31` leading zero bytes, or '1's, overflow the `int` counter. -/
theorem countLeading_overflow (c : UInt8) : countLeading c (List.replicate (2 ^ 31) c) 0 = none := by
  have h := countLeading_replicate c (2 ^ 31) [] (by norm_num : 0 < 2 ^ 31)
  rwa [List.append_nil, if_neg (by norm_num)] at h

theorem base58_leading_count_overflow :
    encodeBase58 (List.replicate (2 ^ 31) 0) = none ∧
      decodeBase58 (List.replicate (2 ^ 31) (asciiByte '1')) = none := by
  have hspace : (List.replicate (2 ^ 31) (asciiByte '1')).dropWhile isspace = List.replicate (2 ^ 31) (asciiByte '1') := by
    rw [List.dropWhile_replicate, if_neg (by decide)]
  constructor
  · simp only [encodeBase58, countLeading_overflow, Option.bind_eq_bind, Option.bind_none]
  · simp only [decodeBase58, hspace, countLeading_overflow, Option.bind_eq_bind, Option.bind_none]

end Membercoin.Base58
