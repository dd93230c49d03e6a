import Membercoin.Serialize.VarInt
import Membercoin.Script.Opcodes

/-!
# Compressed transaction outputs (compressor.h, compressor.cpp)

`CTxOutCompressor` writes an output as the VarInt of its compressed amount
followed by its compressed script.

`CompressAmount` divides out up to nine trailing decimal zeros, counted in
`e`, and folds the last nonzero digit `d` into a mixed radix:
`1 + 10 * (9 * n + d - 1) + e`, or `1 + 10 * (n - 1) + 9` when all nine zeros
were there. `DecompressAmount` undoes this in `uint64_t`, and its final loop of
multiplications by ten wraps around. `decompressAmountValue` is the number
that `x` stands for, without the wrap-around. Below `2 ^ 64` the two agree
(`decompressAmount_eq_mod`), and `decompressAmountValue` is the inverse of the
compression (`decompressAmountValue_compressAmount`,
`compressAmount_decompressAmountValue`). With the wrap-around, some codes far
above any amount decompress to a small amount that compresses to another code:
`DecompressAmount(10 * 2 ^ 55)` is `2 ^ 55 * 10 ^ 9`, which is zero modulo `2 ^ 64`.

`CScriptCompressor` writes one of six templates as its number (0 to 5)
followed by its 20- or 32-byte payload. These are pay-to-pubkey-hash,
pay-to-script-hash, and pay-to-pubkey with a compressed key or with a fully
valid uncompressed one. Any other script is written as the VarInt of its size
plus `nSpecialScripts`, followed by the script itself. Point compression and
decompression on secp256k1 are not modelled. They are the parameter
`PubKeyCodec`. The one assumption on it is `PubKeyCodec.DecompressInverts`:
the key compressed by `Compress` decompresses to itself.
-/

namespace Membercoin

open ByteCodec

/-- `MAX_MONEY` (amount.h): `1000000000 * COIN` with `COIN = 100000000`. -/
def maxMoney : Nat := 1000000000 * 100000000

namespace CTxOutCompressor

section amount

/-- The loop of `CompressAmount` that divides out trailing zeros while `e < 9`;
`k` is the number of rounds left, `9 - e` from the call. -/
def compressAmountLoop (n e : Nat) : Nat → Nat × Nat
  | 0 => (n, e)
  | k + 1 => if n % 10 = 0 ∧ e < 9 then compressAmountLoop (n / 10) (e + 1) k else (n, e)

/-- `CTxOutCompressor::CompressAmount` on a `uint64_t`; `none` where the assert
on the last digit fails. -/
def compressAmount (n : Nat) : Option Nat :=
  if n = 0 then some 0
  else
    let r := compressAmountLoop n 0 9
    let n := r.1
    let e := r.2
    if e < 9 then
      let d := n % 10
      if 1 ≤ d ∧ d ≤ 9 then
        let n := n / 10
        some ((1 + (n * 9 + d - 1) * 10 + e) % 2 ^ 64)
      else none
    else some ((1 + (n - 1) * 10 + 9) % 2 ^ 64)

/-- The loop `while (e) { n *= 10; e--; }` of `DecompressAmount`, in `uint64_t`. -/
def decompressAmountLoop (n : Nat) : Nat → Nat
  | 0 => n
  | e + 1 => decompressAmountLoop (n * 10 % 2 ^ 64) e

/-- `CTxOutCompressor::DecompressAmount` on a `uint64_t` `x`. Before the loop
the numbers stay below `x`, so only the loop wraps around. -/
def decompressAmount (x : Nat) : Nat :=
  if x = 0 then 0
  else
    let x := x - 1
    let e := x % 10
    let x := x / 10
    let n :=
      if e < 9 then
        let d := x % 9 + 1
        let x := x / 9
        x * 10 + d
      else x + 1
    decompressAmountLoop n e

/-- The amount a code `x` stands for: `DecompressAmount` without the
wrap-around of `uint64_t`. -/
def decompressAmountValue (x : Nat) : Nat :=
  if x = 0 then 0
  else
    let e := (x - 1) % 10
    let q := (x - 1) / 10
    (if e < 9 then q / 9 * 10 + q % 9 + 1 else q + 1) * 10 ^ e

example : compressAmount (50 * 100000000) = some 0x32 := by decide

example : decompressAmount 0x1406f40 = 21000000 * 100000000 := by decide

end amount

section amountSpec

/-- The loop keeps the amount: what it divides out it counts in `e`, at most
up to nine, and a last digit of zero is left only when `e` reaches nine. -/
theorem compressAmountLoop_spec : ∀ (k n e : Nat), e + k = 9 →
    n * 10 ^ e = (compressAmountLoop n e k).1 * 10 ^ (compressAmountLoop n e k).2 ∧
      (compressAmountLoop n e k).2 ≤ 9 ∧
      ((compressAmountLoop n e k).2 < 9 → (compressAmountLoop n e k).1 % 10 ≠ 0)
  | 0, n, e, hk => by
    rw [compressAmountLoop]
    exact ⟨rfl, by dsimp only; omega, fun he => by dsimp only at he; omega⟩
  | k + 1, n, e, hk => by
    rw [compressAmountLoop]
    by_cases h : n % 10 = 0 ∧ e < 9
    · rw [if_pos h]
      obtain ⟨hval, h9, hlast⟩ := compressAmountLoop_spec k (n / 10) (e + 1) (by omega)
      refine ⟨?_, h9, hlast⟩
      have hn : n / 10 * 10 = n := Nat.div_mul_cancel (Nat.dvd_of_mod_eq_zero h.1)
      calc n * 10 ^ e = n / 10 * 10 * 10 ^ e := by rw [hn]
        _ = n / 10 * 10 ^ (e + 1) := by ring
        _ = _ := hval
    · rw [if_neg h]
      exact ⟨rfl, by omega, fun he => by omega⟩

/-- On `c * 10 ^ j`, with `j` zeros to divide out in the `k` rounds and a
nonzero last digit of `c` unless all `k` rounds are used, the loop returns
`c` and `e + j`. -/
theorem compressAmountLoop_mul_pow : ∀ (k c j e : Nat), e + k = 9 → j ≤ k → (c % 10 ≠ 0 ∨ j = k) →
    compressAmountLoop (c * 10 ^ j) e k = (c, e + j)
  | 0, c, j, e, _, hj, _ => by
    obtain rfl : j = 0 := by omega
    simp [compressAmountLoop]
  | k + 1, c, 0, e, _, _, hc => by
    have hc' : c % 10 ≠ 0 := by omega
    rw [compressAmountLoop, pow_zero, mul_one, if_neg (fun h => hc' h.1), Nat.add_zero]
  | k + 1, c, j + 1, e, hk, hj, hc => by
    have hmul : c * 10 ^ (j + 1) = c * 10 ^ j * 10 := by ring
    rw [compressAmountLoop, hmul, if_pos ⟨Nat.mul_mod_left _ _, by omega⟩,
      Nat.mul_div_cancel _ (by norm_num),
      compressAmountLoop_mul_pow k c j (e + 1) (by omega) (by omega) (by omega), Nat.add_assoc,
      Nat.add_comm 1 j]

/-- The loop of multiplications by ten, in `uint64_t`. -/
theorem decompressAmountLoop_eq : ∀ (e n : Nat), n < 2 ^ 64 →
    decompressAmountLoop n e = n * 10 ^ e % 2 ^ 64
  | 0, n, h => by rw [decompressAmountLoop, pow_zero, mul_one, Nat.mod_eq_of_lt h]
  | e + 1, n, _ => by
    rw [decompressAmountLoop, decompressAmountLoop_eq e _ (Nat.mod_lt _ (by norm_num)), Nat.mod_mul_mod,
      pow_succ 10 e, Nat.mul_comm (10 ^ e) 10, Nat.mul_assoc]

/-- Below `2 ^ 64`, `DecompressAmount` is the value of the code modulo `2 ^ 64`. -/
theorem decompressAmount_eq_mod {x : Nat} (hx : x < 2 ^ 64) :
    decompressAmount x = decompressAmountValue x % 2 ^ 64 := by
  unfold decompressAmount decompressAmountValue
  by_cases h0 : x = 0
  · simp [h0]
  rw [if_neg h0, if_neg h0]
  dsimp only
  have h64 : (2 : Nat) ^ 64 = 18446744073709551616 := by norm_num
  by_cases he : (x - 1) % 10 < 9
  · rw [if_pos he, if_pos he, decompressAmountLoop_eq _ _ (by omega), Nat.add_assoc]
  · rw [if_neg he, if_neg he, decompressAmountLoop_eq _ _ (by omega)]

/-- The compression of an amount up to `MAX_MONEY` is a code below `2 ^ 64`
that stands for the amount. -/
theorem compressAmount_spec {n : Nat} (hn : n ≤ maxMoney) :
    ∃ x, compressAmount n = some x ∧ x < 2 ^ 64 ∧ decompressAmountValue x = n := by
  by_cases h0 : n = 0
  · exact ⟨0, by simp [compressAmount, h0], by norm_num, by simp [decompressAmountValue, h0]⟩
  obtain ⟨hval, h9, hlast⟩ := compressAmountLoop_spec 9 n 0 rfl
  rw [pow_zero, mul_one] at hval
  generalize hr : compressAmountLoop n 0 9 = r at hval h9 hlast
  obtain ⟨c, j⟩ := r
  dsimp only at hval h9 hlast
  have hmax : maxMoney = 100000000000000000 := rfl
  have h64 : (2 : Nat) ^ 64 = 18446744073709551616 := by norm_num
  have hc : c ≤ n := by
    rw [hval]
    exact Nat.le_mul_of_pos_right c (Nat.pow_pos (by norm_num))
  by_cases hj : j < 9
  · have hd := hlast hj
    have hcode : compressAmount n = some (1 + (c / 10 * 9 + c % 10 - 1) * 10 + j) := by
      simp only [compressAmount, if_neg h0, hr, if_pos hj, if_pos (show 1 ≤ c % 10 ∧ c % 10 ≤ 9 by omega)]
      rw [Nat.mod_eq_of_lt (by omega)]
    refine ⟨_, hcode, by omega, ?_⟩
    have he : (1 + (c / 10 * 9 + c % 10 - 1) * 10 + j - 1) % 10 = j := by omega
    have hq : (1 + (c / 10 * 9 + c % 10 - 1) * 10 + j - 1) / 10 / 9 * 10 +
        (1 + (c / 10 * 9 + c % 10 - 1) * 10 + j - 1) / 10 % 9 + 1 = c := by omega
    simp only [decompressAmountValue, if_neg (show 1 + (c / 10 * 9 + c % 10 - 1) * 10 + j ≠ 0 by omega)]
    rw [he, if_pos hj, hq, hval]
  · obtain rfl : j = 9 := by omega
    have hval' : n = c * 1000000000 := by rw [hval]; norm_num
    have hcode : compressAmount n = some (1 + (c - 1) * 10 + 9) := by
      simp only [compressAmount, if_neg h0, hr, if_neg hj]
      rw [Nat.mod_eq_of_lt (by omega)]
    refine ⟨_, hcode, by omega, ?_⟩
    simp only [decompressAmountValue, if_neg (show 1 + (c - 1) * 10 + 9 ≠ 0 by omega)]
    rw [if_neg (by omega), show (1 + (c - 1) * 10 + 9 - 1) / 10 + 1 = c by omega,
      show (1 + (c - 1) * 10 + 9 - 1) % 10 = 9 by omega, hval]

/-- The compression of the amount a code below `2 ^ 64` stands for is the code. -/
theorem compressAmount_decompressAmountValue {x : Nat} (hx : x < 2 ^ 64) :
    compressAmount (decompressAmountValue x) = some x := by
  by_cases h0 : x = 0
  · simp [decompressAmountValue, compressAmount, h0]
  have h64 : (2 : Nat) ^ 64 = 18446744073709551616 := by norm_num
  by_cases hj : (x - 1) % 10 < 9
  · set c := (x - 1) / 10 / 9 * 10 + (x - 1) / 10 % 9 + 1 with hc
    have hv : decompressAmountValue x = c * 10 ^ ((x - 1) % 10) := by
      simp only [decompressAmountValue, if_neg h0, if_pos hj, hc]
    have hloop := compressAmountLoop_mul_pow 9 c ((x - 1) % 10) 0 rfl (by omega) (.inl (by omega))
    rw [hv, compressAmount, if_neg (Nat.mul_ne_zero (by omega) (by positivity))]
    dsimp only
    rw [hloop, Nat.zero_add, if_pos hj, if_pos (by omega), Nat.mod_eq_of_lt (by omega)]
    congr 1
    omega
  · have hv : decompressAmountValue x = ((x - 1) / 10 + 1) * 10 ^ 9 := by
      simp only [decompressAmountValue, if_neg h0, if_neg hj]
      rw [show (x - 1) % 10 = 9 by omega]
    have hloop := compressAmountLoop_mul_pow 9 ((x - 1) / 10 + 1) 9 0 rfl le_rfl (.inr rfl)
    rw [hv, compressAmount, if_neg (Nat.mul_ne_zero (by omega) (by positivity))]
    dsimp only
    rw [hloop, Nat.zero_add, if_neg (by omega), Nat.mod_eq_of_lt (by omega)]
    congr 1
    omega

end amountSpec

end CTxOutCompressor

/-- The operations of `CPubKey` on secp256k1 that the script compressor calls:
`IsFullyValid`, and `Decompress` of a 33-byte compressed key, which on success
holds the 65-byte uncompressed key (`secp256k1_ec_pubkey_serialize` with
`SECP256K1_EC_UNCOMPRESSED`). -/
structure PubKeyCodec where
  isFullyValid : List UInt8 → Bool
  decompress : List UInt8 → Option (List UInt8)
  length_decompress : ∀ {key key' : List UInt8}, decompress key = some key' → key'.length = 65

/-- Decompressing the compressed form of a fully valid uncompressed key gives
the key back. The compressed form is `0x02` or `0x03` by the parity of the key's
last byte, followed by the 32 bytes of `x`. -/
def PubKeyCodec.DecompressInverts (pk : PubKeyCodec) : Prop :=
  ∀ key : List UInt8, key.length = 65 → key.getD 0 0 = 0x04 → pk.isFullyValid key = true →
    pk.decompress ((0x02 ||| (key.getD 64 0 &&& 0x01)) :: (key.drop 1).take 32) = some key

namespace CScriptCompressor

variable (pk : PubKeyCodec)

/-- `nSpecialScripts`: the number of templates. -/
def nSpecialScripts : Nat := 6

/-- `IsToKeyID`: the hash of a pay-to-pubkey-hash script. -/
def isToKeyID (script : List UInt8) : Option (List UInt8) :=
  if script.length = 25 ∧ script.getD 0 0 = opDup ∧ script.getD 1 0 = opHash160 ∧ script.getD 2 0 = 20 ∧
      script.getD 23 0 = opEqualVerify ∧ script.getD 24 0 = opCheckSig then
    some ((script.drop 3).take 20)
  else none

/-- `IsToScriptID`: the hash of a pay-to-script-hash script. -/
def isToScriptID (script : List UInt8) : Option (List UInt8) :=
  if script.length = 23 ∧ script.getD 0 0 = opHash160 ∧ script.getD 1 0 = 20 ∧
      script.getD 22 0 = opEqual then
    some ((script.drop 2).take 20)
  else none

/-- `IsToPubKey`: the key of a pay-to-pubkey script, compressed, or
uncompressed and fully valid. -/
def isToPubKey (script : List UInt8) : Option (List UInt8) :=
  if script.length = 35 ∧ script.getD 0 0 = 33 ∧ script.getD 34 0 = opCheckSig ∧
      (script.getD 1 0 = 0x02 ∨ script.getD 1 0 = 0x03) then
    some ((script.drop 1).take 33)
  else if script.length = 67 ∧ script.getD 0 0 = 65 ∧ script.getD 66 0 = opCheckSig ∧
      script.getD 1 0 = 0x04 then
    let pubkey := (script.drop 1).take 65
    if pk.isFullyValid pubkey then some pubkey else none
  else none

/-- `Compress`: the template number and payload of a special script. -/
def compress (script : List UInt8) : Option (List UInt8) :=
  match isToKeyID script with
  | some keyID => some (0x00 :: keyID)
  | none =>
    match isToScriptID script with
    | some scriptID => some (0x01 :: scriptID)
    | none =>
      match isToPubKey pk script with
      | some pubkey =>
        if pubkey.getD 0 0 = 0x02 ∨ pubkey.getD 0 0 = 0x03 then
          some (pubkey.getD 0 0 :: (pubkey.drop 1).take 32)
        else if pubkey.getD 0 0 = 0x04 then
          some ((0x04 ||| (pubkey.getD 64 0 &&& 0x01)) :: (pubkey.drop 1).take 32)
        else none
      | none => none

/-- `GetSpecialSize`: the size of the payload of a template. -/
def getSpecialSize (nSize : Nat) : Nat :=
  if nSize = 0 ∨ nSize = 1 then 20
  else if nSize = 2 ∨ nSize = 3 ∨ nSize = 4 ∨ nSize = 5 then 32
  else 0

/-- `Decompress`: the script of template `nSize` from its payload; `none` where
it returns false and leaves the script as it was. The assert on the size of the
decompressed key holds by `PubKeyCodec.length_decompress`. -/
def decompress (nSize : Nat) (input : List UInt8) : Option (List UInt8) :=
  match nSize with
  | 0 => some ([opDup, opHash160, 20] ++ input.take 20 ++ [opEqualVerify, opCheckSig])
  | 1 => some ([opHash160, 20] ++ input.take 20 ++ [opEqual])
  | 2 => some ([33, 0x02] ++ input.take 32 ++ [opCheckSig])
  | 3 => some ([33, 0x03] ++ input.take 32 ++ [opCheckSig])
  | 4 => (pk.decompress (0x02 :: input.take 32)).map fun pubkey => [65] ++ pubkey ++ [opCheckSig]
  | 5 => (pk.decompress (0x03 :: input.take 32)).map fun pubkey => [65] ++ pubkey ++ [opCheckSig]
  | _ => none

/-- `Serialize`: a special script as its template, any other as the VarInt of
its size plus `nSpecialScripts`, an `unsigned int`, and its bytes. -/
def serialize (script : List UInt8) : Option (List UInt8) :=
  match compress pk script with
  | some compr => some compr
  | none => (writeVarInt 32 ((script.length + nSpecialScripts) % 2 ^ 32)).map (· ++ script)

/-- `Unserialize` into a script that holds `script`. A template whose key does
not decompress leaves `script` as it was. An overly long script becomes
`script` followed by `OP_RETURN`, and its bytes are skipped. -/
def unserialize (script : List UInt8) : Reader (List UInt8) := do
  let nSize ← readVarInt 32
  if nSize < nSpecialScripts then
    let vch ← readBytes (getSpecialSize nSize)
    pure ((decompress pk nSize vch).getD script)
  else
    let nSize := nSize - nSpecialScripts
    if nSize > maxScriptSize then
      let _ ← readBytes nSize
      pure (script ++ [opReturn])
    else readBytes nSize

section templates

variable {pk}

/-- A pay-to-pubkey-hash script is its template around the hash. -/
theorem isToKeyID_eq_some {script keyID : List UInt8} (h : isToKeyID script = some keyID) :
    keyID.length = 20 ∧ script = [opDup, opHash160, 20] ++ keyID ++ [opEqualVerify, opCheckSig] := by
  unfold isToKeyID at h
  split_ifs at h with hs
  cases h
  obtain ⟨hlen, h0, h1, h2, h23, h24⟩ := hs
  refine ⟨by simp [hlen], eq_append_of_getD 0 (by simp [hlen]) (fun i hi => ?_) (fun i hi => ?_)⟩
  · simp only [List.length_cons, List.length_nil] at hi
    interval_cases i <;> simpa
  · simp only [List.length_cons, List.length_nil] at hi
    interval_cases i <;> simpa

/-- A pay-to-script-hash script is its template around the hash. -/
theorem isToScriptID_eq_some {script scriptID : List UInt8} (h : isToScriptID script = some scriptID) :
    scriptID.length = 20 ∧ script = [opHash160, 20] ++ scriptID ++ [opEqual] := by
  unfold isToScriptID at h
  split_ifs at h with hs
  cases h
  obtain ⟨hlen, h0, h1, h22⟩ := hs
  refine ⟨by simp [hlen], eq_append_of_getD 0 (by simp [hlen]) (fun i hi => ?_) (fun i hi => ?_)⟩
  · simp only [List.length_cons, List.length_nil] at hi
    interval_cases i <;> simpa
  · simp only [List.length_cons, List.length_nil] at hi
    interval_cases i
    simpa

/-- A pay-to-pubkey script is the key's size, the key and `OP_CHECKSIG`: a
compressed key, or a fully valid uncompressed one. -/
theorem isToPubKey_eq_some {script pubkey : List UInt8} (h : isToPubKey pk script = some pubkey) :
    (pubkey.length = 33 ∧ (pubkey.getD 0 0 = 0x02 ∨ pubkey.getD 0 0 = 0x03) ∧
        script = [33] ++ pubkey ++ [opCheckSig]) ∨
      (pubkey.length = 65 ∧ pubkey.getD 0 0 = 0x04 ∧ pk.isFullyValid pubkey = true ∧
        script = [65] ++ pubkey ++ [opCheckSig]) := by
  unfold isToPubKey at h
  dsimp only at h
  split_ifs at h with h33 h65 hvalid
  · cases h
    obtain ⟨hlen, h0, h34, h1⟩ := h33
    refine .inl ⟨by simp [hlen], by simpa using h1,
      eq_append_of_getD 0 (by simp [hlen]) (fun i hi => ?_) (fun i hi => ?_)⟩
    · simp only [List.length_cons, List.length_nil] at hi
      interval_cases i
      simpa
    · simp only [List.length_cons, List.length_nil] at hi
      interval_cases i
      simpa
  · cases h
    obtain ⟨hlen, h0, h66, h1⟩ := h65
    refine .inr ⟨by simp [hlen], by simpa using h1, hvalid,
      eq_append_of_getD 0 (by simp [hlen]) (fun i hi => ?_) (fun i hi => ?_)⟩
    · simp only [List.length_cons, List.length_nil] at hi
      interval_cases i
      simpa
    · simp only [List.length_cons, List.length_nil] at hi
      interval_cases i
      simpa

end templates

section roundTrip

variable {pk}

/-- A template number is a one-byte VarInt, and its payload follows. -/
theorem unserialize_special {b : UInt8} (hb : b.toNat < nSpecialScripts) {payload : List UInt8}
    (hlen : payload.length = getSpecialSize b.toNat) (script₀ rest : List UInt8) :
    unserialize pk script₀ (b :: payload ++ rest) =
      some ((decompress pk b.toNat payload).getD script₀, rest) := by
  have hread : readVarInt 32 (b :: (payload ++ rest)) = some (b.toNat, payload ++ rest) :=
    readVarInt_cons_of_lt (by norm_num) (by unfold nSpecialScripts at hb; omega) _
  simp only [unserialize, List.cons_append, bind_apply, hread, Option.bind_some, if_pos hb, ← hlen,
    readBytes_append, pure_apply]

/-- A script of at most `MAX_SCRIPT_SIZE` bytes, after the VarInt of its size
plus `nSpecialScripts`, is read back as itself. -/
theorem unserialize_plain {script bytes : List UInt8} (hlen : script.length ≤ maxScriptSize)
    (hbytes : ∀ rest, readVarInt 32 (bytes ++ rest) = some (script.length + nSpecialScripts, rest))
    (script₀ rest : List UInt8) :
    unserialize pk script₀ (bytes ++ script ++ rest) = some (script, rest) := by
  have hsize : ¬script.length + nSpecialScripts < nSpecialScripts := by omega
  simp only [unserialize, List.append_assoc, bind_apply, hbytes, Option.bind_some, if_neg hsize,
    Nat.add_sub_cancel]
  rw [if_neg (by omega), readBytes_append]

/-- The parity bit of a byte. -/
theorem and_one_eq_zero_or_one (x : UInt8) : x &&& 1 = 0 ∨ x &&& 1 = 1 := by
  have h : (x &&& 1).toNat ≤ 1 := by
    rw [UInt8.toNat_and]
    exact Nat.and_le_right
  rcases Nat.le_one_iff_eq_zero_or_eq_one.mp h with h | h
  · exact .inl (UInt8.toNat_inj.mp h)
  · exact .inr (UInt8.toNat_inj.mp h)

/-- The payload of a key is its bytes after the first. -/
theorem cons_drop_one {pubkey : List UInt8} {k : Nat} (hlen : pubkey.length = k + 1) :
    pubkey = pubkey.getD 0 0 :: (pubkey.drop 1).take k ∧ ((pubkey.drop 1).take k).length = k := by
  obtain ⟨p0, ptail, rfl⟩ := List.exists_cons_of_length_pos (show 0 < pubkey.length by omega)
  simp only [List.length_cons, Nat.add_right_cancel_iff] at hlen
  simp [List.take_of_length_le (le_of_eq hlen), hlen]

/-- What `Compress` writes for a special script reads back as the script,
when decompression inverts compression. -/
theorem unserialize_compress (hpk : pk.DecompressInverts) {script out : List UInt8}
    (h : compress pk script = some out) (script₀ rest : List UInt8) :
    unserialize pk script₀ (out ++ rest) = some (script, rest) := by
  unfold compress at h
  cases hk : isToKeyID script with
  | some keyID =>
    rw [hk] at h
    cases h
    obtain ⟨hlen, rfl⟩ := isToKeyID_eq_some hk
    rw [unserialize_special (by decide) (by rw [hlen]; rfl)]
    simp [decompress, List.take_of_length_le (le_of_eq hlen)]
  | none =>
  cases hs : isToScriptID script with
  | some scriptID =>
    rw [hk, hs] at h
    cases h
    obtain ⟨hlen, rfl⟩ := isToScriptID_eq_some hs
    rw [unserialize_special (by decide) (by rw [hlen]; rfl)]
    simp [decompress, List.take_of_length_le (le_of_eq hlen)]
  | none =>
  cases hp : isToPubKey pk script with
  | none =>
    rw [hk, hs, hp] at h
    cases h
  | some pubkey =>
    rw [hk, hs, hp] at h
    dsimp only at h
    rcases isToPubKey_eq_some hp with ⟨hlen, h23, rfl⟩ | ⟨hlen, h4, hvalid, rfl⟩
    · rw [if_pos h23] at h
      cases h
      obtain ⟨hkey, hpay⟩ := cons_drop_one (show pubkey.length = 32 + 1 from hlen)
      rcases h23 with h2 | h3
      · rw [h2] at hkey ⊢
        rw [unserialize_special (by decide) (by rw [hpay]; rfl)]
        conv_rhs => rw [hkey]
        simp [decompress]
      · rw [h3] at hkey ⊢
        rw [unserialize_special (by decide) (by rw [hpay]; rfl)]
        conv_rhs => rw [hkey]
        simp [decompress]
    · rw [if_neg (by rw [h4]; decide), if_pos h4] at h
      cases h
      have hdec := hpk pubkey hlen h4 hvalid
      have hpay : ((pubkey.drop 1).take 32).length = 32 := by simp [hlen]
      rcases and_one_eq_zero_or_one (pubkey.getD 64 0) with h0 | h1
      · have hb : ((0x04 : UInt8) ||| 0).toNat = 4 := by decide
        rw [h0, show (0x02 : UInt8) ||| 0 = 0x02 by decide] at hdec
        rw [h0, unserialize_special (by rw [hb]; decide) (by rw [hb, hpay]; rfl), hb]
        simp only [decompress, List.take_of_length_le (le_of_eq hpay), hdec, Option.map_some, Option.getD_some]
      · have hb : ((0x04 : UInt8) ||| 1).toNat = 5 := by decide
        rw [h1, show (0x02 : UInt8) ||| 1 = 0x03 by decide] at hdec
        rw [h1, unserialize_special (by rw [hb]; decide) (by rw [hb, hpay]; rfl), hb]
        simp only [decompress, List.take_of_length_le (le_of_eq hpay), hdec, Option.map_some, Option.getD_some]

/-- A script of at most `MAX_SCRIPT_SIZE` bytes is written, and what is
written reads back as the script, into any script, followed by any rest. -/
theorem unserialize_serialize (hpk : pk.DecompressInverts) {script : List UInt8}
    (hlen : script.length ≤ maxScriptSize) :
    ∃ bytes, serialize pk script = some bytes ∧
      ∀ script₀ rest, unserialize pk script₀ (bytes ++ rest) = some (script, rest) := by
  cases hc : compress pk script with
  | some out => exact ⟨out, by rw [serialize, hc], unserialize_compress hpk hc⟩
  | none =>
    have hsize : script.length + nSpecialScripts < 2 ^ 32 := by
      unfold nSpecialScripts maxScriptSize at *
      omega
    obtain ⟨bytes, hwrite, -, hread⟩ := readVarInt_writeVarInt (by norm_num) hsize
    refine ⟨bytes ++ script, by rw [serialize, hc, Nat.mod_eq_of_lt hsize, hwrite, Option.map_some],
      fun script₀ rest => unserialize_plain hlen hread script₀ rest⟩

end roundTrip

end CScriptCompressor

/-- The fields of `CTxOut`: the amount, a `CAmount` (`int64_t`), and the script. -/
structure CTxOut where
  nValue : Int
  scriptPubKey : List UInt8
  deriving Repr, DecidableEq

namespace CTxOutCompressor

variable (pk : PubKeyCodec)

/-- The conversion of a `uint64_t` to `int64_t`, modulo `2 ^ 64`. -/
def toInt64 (u : Nat) : Int := if u < 2 ^ 63 then u else (u : Int) - 2 ^ 64

/-- `SerializationOp` writing: the VarInt of the compressed amount, read as a
`uint64_t`, then the compressed script. -/
def serialize (txout : CTxOut) : Option (List UInt8) := do
  let nVal ← compressAmount (txout.nValue % 2 ^ 64).toNat
  let amount ← writeVarInt 64 nVal
  let script ← CScriptCompressor.serialize pk txout.scriptPubKey
  pure (amount ++ script)

/-- `SerializationOp` reading into `txout`: the amount decompressed from its
VarInt, then the script. -/
def unserialize (txout : CTxOut) : Reader CTxOut := do
  let nVal ← readVarInt 64
  let nValue := toInt64 (decompressAmount nVal)
  let scriptPubKey ← CScriptCompressor.unserialize pk txout.scriptPubKey
  pure { nValue, scriptPubKey }

section roundTrip

variable {pk}

/-- An amount in `[0, MAX_MONEY]` survives its conversions to `uint64_t` and back. -/
theorem toInt64_toNat {v : Int} (h0 : 0 ≤ v) (hv : v ≤ maxMoney) : toInt64 (v % 2 ^ 64).toNat = v := by
  have hmax : (maxMoney : Int) = 100000000000000000 := rfl
  have hmod : v % 2 ^ 64 = v := Int.emod_eq_of_lt h0 (by norm_num; omega)
  rw [hmod, toInt64, if_pos (by norm_num; omega), Int.toNat_of_nonneg h0]

/-- An output with an amount in `[0, MAX_MONEY]` and a script of at most
`MAX_SCRIPT_SIZE` bytes is written, and reads back into any output, followed by
any rest. -/
theorem unserialize_serialize (hpk : pk.DecompressInverts) {txout : CTxOut} (h0 : 0 ≤ txout.nValue)
    (hv : txout.nValue ≤ maxMoney) (hlen : txout.scriptPubKey.length ≤ maxScriptSize) :
    ∃ bytes, serialize pk txout = some bytes ∧
      ∀ txout₀ rest, unserialize pk txout₀ (bytes ++ rest) = some (txout, rest) := by
  have hn : (txout.nValue % 2 ^ 64).toNat ≤ maxMoney := by
    have hmax : (maxMoney : Int) = 100000000000000000 := rfl
    rw [Int.emod_eq_of_lt h0 (by norm_num; omega)]
    omega
  obtain ⟨x, hx, hx64, hval⟩ := compressAmount_spec hn
  obtain ⟨amount, hwrite, -, hread⟩ := readVarInt_writeVarInt (by norm_num) hx64
  obtain ⟨script, hs, hsread⟩ := CScriptCompressor.unserialize_serialize hpk hlen
  have hdec : decompressAmount x = (txout.nValue % 2 ^ 64).toNat := by
    rw [decompressAmount_eq_mod hx64, hval, Nat.mod_eq_of_lt]
    exact lt_of_le_of_lt hn (by decide)
  refine ⟨amount ++ script, ?_, fun txout₀ rest => ?_⟩
  · simp only [serialize, hx, hwrite, hs, Option.bind_eq_bind, Option.bind_some, Option.pure_def]
  · simp only [unserialize, List.append_assoc, bind_apply, hread, Option.bind_some, hdec, toInt64_toNat h0 hv,
      hsread, pure_apply]

end roundTrip

end CTxOutCompressor

/-- `CTxOutCompressor` round-trips. Every amount in `[0, MAX_MONEY]`
decompresses back from its compression. Every code below `2 ^ 64` that stands
for an amount of at most `MAX_MONEY` is the compression of what
`DecompressAmount` returns. An output with such an amount and a script of at
most `MAX_SCRIPT_SIZE` bytes is read back from what is written for it, and the
read consumes exactly those bytes. This holds when secp256k1 decompression
inverts compression. -/
theorem txOutCompressor_roundtrip (pk : PubKeyCodec) (hpk : pk.DecompressInverts) :
    (∀ n ≤ maxMoney, ∃ x, CTxOutCompressor.compressAmount n = some x ∧
        CTxOutCompressor.decompressAmount x = n) ∧
    (∀ x < 2 ^ 64, CTxOutCompressor.decompressAmountValue x ≤ maxMoney →
        CTxOutCompressor.compressAmount (CTxOutCompressor.decompressAmount x) = some x) ∧
    ∀ txout : CTxOut, 0 ≤ txout.nValue → txout.nValue ≤ maxMoney → txout.scriptPubKey.length ≤ maxScriptSize →
      ∃ bytes, CTxOutCompressor.serialize pk txout = some bytes ∧
        ∀ (txout₀ : CTxOut) (rest : List UInt8), CTxOutCompressor.unserialize pk txout₀ (bytes ++ rest) = some (txout, rest) := by
  refine ⟨fun n hn => ?_, fun x hx hval => ?_,
    fun txout h0 hv hlen => CTxOutCompressor.unserialize_serialize hpk h0 hv hlen⟩
  · obtain ⟨x, hx, hx64, hval⟩ := CTxOutCompressor.compressAmount_spec hn
    refine ⟨x, hx, ?_⟩
    rw [CTxOutCompressor.decompressAmount_eq_mod hx64, hval, Nat.mod_eq_of_lt (lt_of_le_of_lt hn (by decide))]
  · rw [CTxOutCompressor.decompressAmount_eq_mod hx, Nat.mod_eq_of_lt (lt_of_le_of_lt hval (by decide)),
      CTxOutCompressor.compressAmount_decompressAmountValue hx]

theorem txOutCompressor_roundtrip_max_money :
    ∃ x, CTxOutCompressor.compressAmount maxMoney = some x ∧ CTxOutCompressor.decompressAmount x = maxMoney :=
  (txOutCompressor_roundtrip ⟨fun _ => false, fun _ => none, fun h => by cases h⟩
    (fun _ _ _ h => by cases h)).1 maxMoney le_rfl

/-- In `uint64_t`, the code `10 * 2 ^ 55` decompresses to `2 ^ 55 * 10 ^ 9`,
which is zero modulo `2 ^ 64`, and zero compresses to the code zero. -/
theorem decompressAmount_wraps_to_zero :
    CTxOutCompressor.decompressAmount 360287970189639680 ≤ maxMoney ∧
      CTxOutCompressor.compressAmount (CTxOutCompressor.decompressAmount 360287970189639680) ≠
        some 360287970189639680 := by
  decide

end Membercoin
