import Membercoin.Serialize.Stream

/-!
# The variable fast filter (fastfilter.h)

`CVariableFastFilter` is a Bloom filter for hashes that are random already.
Round `i` of its loops takes one 32-bit word of the `uint256` and sets or
tests bit `word % (nFilterBits - 1)` of `vData`; after every eighth round the
hash is rotated by one byte.

The constructor sizes the filter with `nFilterBits = 8 * nFilterBytes`.
`SerializationOp` writes `vData`, `nHashFuncs` and `nFilterBits` and, reading,
sets `nFilterBytes = 8 * nFilterBits`, so a filter read back claims 64 times
the bytes it has and its `reset`, a `memset` of `nFilterBytes` bytes, runs
past `vData`. Nothing relates an `nFilterBits` read from a peer to the size
of `vData` either.

What the C++ leaves undefined is `none`: the `% 0` of `nFilterBits = 1`, an
index outside `vData`, and the word the loops read in rounds 15, 23 and 31.
After round 7 the rotation resets `pos` to the start of the hash just before
the loop's own `pos++`, so from round 8 on `pos` is one word ahead and in
those rounds points past the 32 bytes. The `double` computations of the
sizing constructor are parameters.

With `nFilterBits` between 2 and `8 * vData.size() + 1` and fewer than 16
hash functions every loop is defined, an inserted hash stays contained
through any later inserts, and the filter read back answers `contains` as
the original does.
-/

namespace Membercoin

open ByteCodec

/-- The fields of a `CVariableFastFilter`. -/
structure CVariableFastFilter where
  vData : List UInt8
  nHashFuncs : UInt8
  nFilterBytes : UInt32
  nFilterBits : UInt64
  deriving Repr, DecidableEq

namespace CVariableFastFilter

/-- `MIN_N_HASH_FUNC`. -/
def minNHashFunc : Nat := 1

/-- `MAX_N_HASH_FUNC`. -/
def maxNHashFunc : Nat := 32

/-- The default constructor: one byte, one hash function. -/
def init : CVariableFastFilter := ⟨[0], 1, 1, 8⟩

/-- The sizing constructor after its `double` computations: `nFilterBytes` is
`(uint32_t)ceil(-1 / LN2SQUARED * nElements * log(nFPRate) / 8)` and
`hashFuncsEstimate` is `int(nFilterBytes * 8 / nElements * LN2)`. The
product `8 * nFilterBytes` is taken in `uint32_t`. -/
def ofSize (nFilterBytes : UInt32) (hashFuncsEstimate : Int) : CVariableFastFilter :=
  let optimalNHashFuncs := (max (minNHashFunc : Int) hashFuncsEstimate).toNat
  { vData := List.replicate nFilterBytes.toNat 0
    nHashFuncs := if optimalNHashFuncs > maxNHashFunc then maxNHashFunc.toUInt8 else optimalNHashFuncs.toUInt8
    nFilterBytes := nFilterBytes
    nFilterBits := (8 * nFilterBytes).toUInt64 }

/-- The word that `pos` points at in round `i`. -/
def hashWordIndex (i : Nat) : Nat := if i < 8 then i else i % 8 + 1

/-- `*pos` in round `i`, read little-endian from the hash rotated once after
each eighth round; `none` past the 32 bytes. -/
def hashWord (hash : Uint256) (i : Nat) : Option UInt32 :=
  if hashWordIndex i < 8 then
    some (leValue (((hash.data.rotateLeft (i / 8)).drop (4 * hashWordIndex i)).take 4)).toUInt32
  else none

/-- `val % (nFilterBits - 1)` in `uint64_t`, kept in a `uint32_t`. -/
def bitIndex (f : CVariableFastFilter) (val : UInt32) : Option UInt32 :=
  if f.nFilterBits - 1 = 0 then none else some (val.toUInt64 % (f.nFilterBits - 1)).toUInt32

/-- `1 << (idx & 7)`, the bit of its byte that `idx` names. -/
def bitMask (idx : UInt32) : UInt8 := ((1 : UInt32) <<< (idx &&& 7)).toUInt8

/-- `vData[idx >> 3] |= (1 << (idx & 7))`. -/
def setBit (vData : List UInt8) (idx : UInt32) : Option (List UInt8) :=
  if (idx >>> 3).toNat < vData.length then
    some (vData.modify (idx >>> 3).toNat (· ||| bitMask idx))
  else none

/-- `0 == (vData[idx >> 3] & (1 << (idx & 7)))`: the bit is clear. -/
def bitUnset (vData : List UInt8) (idx : UInt32) : Option Bool :=
  if (idx >>> 3).toNat < vData.length then
    some (vData.getD (idx >>> 3).toNat 0 &&& bitMask idx == 0)
  else none

/-- `insert`. -/
def insert (f : CVariableFastFilter) (hash : Uint256) : Option CVariableFastFilter := do
  let vData ← (List.range f.nHashFuncs.toNat).foldlM (fun vData i => do
    let val ← hashWord hash i
    let idx ← f.bitIndex val
    setBit vData idx) f.vData
  pure { f with vData }

/-- `contains`. -/
def contains (f : CVariableFastFilter) (hash : Uint256) : Option Bool := do
  let unset ← (List.range f.nHashFuncs.toNat).foldlM (fun unset i => do
    let val ← hashWord hash i
    let idx ← f.bitIndex val
    let u ← bitUnset f.vData idx
    pure (unset || u)) false
  pure !unset

/-- `checkAndSet`: whether some bit was clear, with all of them set. -/
def checkAndSet (f : CVariableFastFilter) (hash : Uint256) : Option (Bool × CVariableFastFilter) := do
  let r ← (List.range f.nHashFuncs.toNat).foldlM (fun (r : Bool × List UInt8) i => do
    let val ← hashWord hash i
    let idx ← f.bitIndex val
    let u ← bitUnset r.2 idx
    let vData ← setBit r.2 idx
    pure (r.1 || u, vData)) (false, f.vData)
  pure (r.1, { f with vData := r.2 })

/-- `reset`: `memset(&vData[0], 0, nFilterBytes)`, defined only inside a
non-empty `vData`. -/
def reset (f : CVariableFastFilter) : Option CVariableFastFilter :=
  if f.vData ≠ [] ∧ f.nFilterBytes.toNat ≤ f.vData.length then
    some { f with vData := List.replicate f.nFilterBytes.toNat 0 ++ f.vData.drop f.nFilterBytes.toNat }
  else none

/-- `SerializationOp` writing. -/
def serialize (f : CVariableFastFilter) : List UInt8 :=
  serializeByteVector f.vData ++ serWritedata8 f.nHashFuncs.toNat ++ serWritedata64 f.nFilterBits.toNat

/-- `SerializationOp` reading, which refuses `nHashFuncs` outside `[1, 32]`
and sets `nFilterBytes = 8 * nFilterBits`. -/
def unserialize : Reader CVariableFastFilter := do
  let vData ← unserializeByteVector
  let nHashFuncs ← serReaddata8
  if nHashFuncs < 1 ∨ nHashFuncs > 32 then failure
  let nFilterBits ← serReaddata64
  pure ⟨vData, nHashFuncs.toUInt8, (8 * nFilterBits.toUInt64).toUInt32, nFilterBits.toUInt64⟩

/-! ## Bits -/

/-- Bit `n` of `vData`: bit `n % 8` of byte `n / 8`, clear past the end. -/
def bitSet (vData : List UInt8) (n : Nat) : Bool := (vData.getD (n / 8) 0).toNat.testBit (n % 8)

theorem and_two_pow_eq_zero_iff (x k : Nat) : x &&& 2 ^ k = 0 ↔ x.testBit k = false := by
  constructor
  · intro h
    have hk := congrArg (fun y => y.testBit k) h
    simpa [Nat.testBit_and, Nat.testBit_two_pow_self] using hk
  · intro h
    apply Nat.eq_of_testBit_eq
    intro j
    rw [Nat.testBit_and, Nat.testBit_two_pow, Nat.zero_testBit]
    by_cases hj : k = j
    · subst hj
      simp [h]
    · simp [hj]

theorem toNat_shiftRight_three (idx : UInt32) : (idx >>> 3).toNat = idx.toNat / 8 := by
  simp [UInt32.toNat_shiftRight, Nat.shiftRight_eq_div_pow]

theorem toNat_bitMask (idx : UInt32) : (bitMask idx).toNat = 2 ^ (idx.toNat % 8) := by
  have h7 : (7 : UInt32).toNat = 2 ^ 3 - 1 := rfl
  simp only [bitMask, UInt32.toNat_toUInt8, UInt32.toNat_shiftLeft, UInt32.toNat_and, h7,
    Nat.and_two_pow_sub_one_eq_mod, UInt32.toNat_one, Nat.one_shiftLeft]
  have hs : idx.toNat % 2 ^ 3 % 32 = idx.toNat % 8 := by omega
  have h8 : 2 ^ (idx.toNat % 8) < 2 ^ 8 := Nat.pow_lt_pow_right (by decide) (Nat.mod_lt _ (by decide))
  rw [hs, Nat.mod_eq_of_lt (lt_trans h8 (by decide)), Nat.mod_eq_of_lt h8]

/-- Inside `vData`, the test reads the bit that `idx` names. -/
theorem bitUnset_eq {vData : List UInt8} {idx : UInt32} (h : idx.toNat / 8 < vData.length) :
    bitUnset vData idx = some !(bitSet vData idx.toNat) := by
  rw [bitUnset, toNat_shiftRight_three, if_pos h, bitSet]
  have hiff : vData.getD (idx.toNat / 8) 0 &&& bitMask idx = 0 ↔
      (vData.getD (idx.toNat / 8) 0).toNat.testBit (idx.toNat % 8) = false := by
    rw [← UInt8.toNat_inj, UInt8.toNat_and, toNat_bitMask, UInt8.toNat_zero, and_two_pow_eq_zero_iff]
  rw [beq_eq_decide]
  simp only [hiff]
  cases (vData.getD (idx.toNat / 8) 0).toNat.testBit (idx.toNat % 8) <;> rfl

/-- Inside `vData`, setting a bit keeps the length and adds exactly that bit. -/
theorem setBit_eq {vData : List UInt8} {idx : UInt32} (h : idx.toNat / 8 < vData.length) :
    ∃ vData', setBit vData idx = some vData' ∧ vData'.length = vData.length ∧
      ∀ n, bitSet vData' n = (bitSet vData n || decide (n = idx.toNat)) := by
  refine ⟨_, by rw [setBit, toNat_shiftRight_three, if_pos h], List.length_modify .., fun n => ?_⟩
  simp only [bitSet, List.getD_eq_getElem?_getD, List.getElem?_modify, Option.map_eq_map]
  by_cases hn : idx.toNat / 8 = n / 8
  · have hlt : n / 8 < vData.length := hn ▸ h
    simp only [hn, ↓reduceIte, List.getElem?_eq_getElem hlt, Option.map_some, Option.getD_some,
      UInt8.toNat_or, toNat_bitMask, Nat.testBit_or, Nat.testBit_two_pow]
    congr 1
    simp only [decide_eq_decide]
    omega
  · have hne : n ≠ idx.toNat := fun he => hn (he ▸ rfl)
    simp [hn, hne]

/-- A byte is its eight bits. -/
theorem byte_eq_of_testBit {x y : UInt8} (h : ∀ j < 8, x.toNat.testBit j = y.toNat.testBit j) : x = y := by
  rw [← UInt8.toNat_inj]
  apply Nat.eq_of_testBit_eq
  intro j
  by_cases hj : j < 8
  · exact h j hj
  · have h8 : 2 ^ 8 ≤ 2 ^ j := Nat.pow_le_pow_right (by decide) (by omega)
    rw [Nat.testBit_lt_two_pow (lt_of_lt_of_le x.toNat_lt h8), Nat.testBit_lt_two_pow (lt_of_lt_of_le y.toNat_lt h8)]

/-- Bytes of one length are their bits. -/
theorem eq_of_bitSet {D D' : List UInt8} (hlen : D.length = D'.length) (h : ∀ n, bitSet D n = bitSet D' n) :
    D = D' := by
  apply List.ext_getElem hlen
  intro i hi hi'
  apply byte_eq_of_testBit
  intro j hj
  have hn := h (8 * i + j)
  have hdiv : (8 * i + j) / 8 = i := by omega
  have hmod : (8 * i + j) % 8 = j := by omega
  simpa only [bitSet, hdiv, hmod, List.getD_eq_getElem _ _ hi, List.getD_eq_getElem _ _ hi'] using hn

/-- A clear bit among some is their not all being set. -/
theorem decide_exists_clear (L : List Nat) (D : List UInt8) :
    decide (∃ n ∈ L, bitSet D n = false) = !decide (∀ n ∈ L, bitSet D n = true) := by
  rw [← decide_not]
  simp only [not_forall, Bool.not_eq_true, exists_prop]

/-! ## The rounds -/

/-- The bits that the first `k` rounds name for `hash`. -/
def hashBits (f : CVariableFastFilter) (hash : Uint256) (k : Nat) : List Nat :=
  (List.range k).filterMap fun i => ((hashWord hash i).bind f.bitIndex).map UInt32.toNat

/-- Every index `val % (nFilterBits - 1)` is a bit of `vData`, and the modulus
is not zero. -/
structure InBounds (f : CVariableFastFilter) : Prop where
  two_le : 2 ≤ f.nFilterBits.toNat
  le_bits : f.nFilterBits.toNat ≤ 8 * f.vData.length + 1

theorem hashWord_isSome (hash : Uint256) {i : Nat} (hi : i < 15) : (hashWord hash i).isSome := by
  unfold hashWord hashWordIndex
  split_ifs with h1 h2 <;> first | rfl | omega

/-- Round 15 reads the word past the hash. -/
theorem hashWord_fifteen (hash : Uint256) : hashWord hash 15 = none := rfl

theorem bitIndex_spec {f : CVariableFastFilter} (hb : InBounds f) (val : UInt32) :
    ∃ idx, f.bitIndex val = some idx ∧ idx.toNat < f.nFilterBits.toNat - 1 := by
  have hsub : (f.nFilterBits - 1).toNat = f.nFilterBits.toNat - 1 :=
    UInt64.toNat_sub_of_le _ _ (by simp only [UInt64.le_iff_toNat_le, UInt64.toNat_one]; have := hb.two_le; omega)
  have hne : f.nFilterBits - 1 ≠ 0 := by
    intro h0
    have h0' := congrArg UInt64.toNat h0
    have := hb.two_le
    simp only [hsub, UInt64.toNat_zero] at h0'
    omega
  refine ⟨_, by rw [bitIndex, if_neg hne], ?_⟩
  have hval := val.toNat_lt
  have hmod : val.toNat % (f.nFilterBits.toNat - 1) < f.nFilterBits.toNat - 1 :=
    Nat.mod_lt _ (by have := hb.two_le; omega)
  simp only [UInt64.toNat_toUInt32, UInt64.toNat_mod, UInt32.toNat_toUInt64, hsub]
  rw [Nat.mod_eq_of_lt (lt_of_le_of_lt (Nat.mod_le _ _) hval)]
  exact hmod

/-- A round within the hash names a bit of `vData`. -/
theorem round_spec {f : CVariableFastFilter} (hb : InBounds f) (hash : Uint256) {i : Nat} (hi : i < 15) :
    ∃ idx, (hashWord hash i).bind f.bitIndex = some idx ∧ idx.toNat / 8 < f.vData.length := by
  obtain ⟨val, hval⟩ := Option.isSome_iff_exists.mp (hashWord_isSome hash hi)
  obtain ⟨idx, hidx, hlt⟩ := bitIndex_spec hb val
  refine ⟨idx, by rw [hval, Option.bind_some, hidx], ?_⟩
  have := hb.le_bits
  omega

theorem hashBits_succ {f : CVariableFastFilter} {hash : Uint256} {k : Nat} {idx : UInt32}
    (h : (hashWord hash k).bind f.bitIndex = some idx) :
    f.hashBits hash (k + 1) = f.hashBits hash k ++ [idx.toNat] := by
  simp only [hashBits, List.range_succ, List.filterMap_append, List.filterMap_cons, List.filterMap_nil, h,
    Option.map_some]

/-- The first `k` rounds of `insert` set exactly the bits they name. -/
theorem foldlM_setBit {f : CVariableFastFilter} (hb : InBounds f) (hash : Uint256) :
    ∀ k, k ≤ 15 → ∃ D, (List.range k).foldlM (fun vData i => do
        let val ← hashWord hash i
        let idx ← f.bitIndex val
        setBit vData idx) f.vData = some D ∧ D.length = f.vData.length ∧
      ∀ n, bitSet D n = (bitSet f.vData n || decide (n ∈ f.hashBits hash k))
  | 0, _ => ⟨f.vData, rfl, rfl, fun n => by simp [hashBits]⟩
  | k + 1, hk => by
    obtain ⟨D, hrun, hlen, hbits⟩ := foldlM_setBit hb hash k (by omega)
    obtain ⟨idx, hidx, hlt⟩ := round_spec hb hash (show k < 15 by omega)
    obtain ⟨D', hset, hlen', hbits'⟩ := setBit_eq (show idx.toNat / 8 < D.length from hlen ▸ hlt)
    refine ⟨D', ?_, hlen'.trans hlen, fun n => ?_⟩
    · rw [List.range_succ, List.foldlM_append, hrun]
      simp only [Option.bind_eq_bind, Option.bind_some, List.foldlM_cons, List.foldlM_nil]
      rw [← Option.bind_assoc, hidx, Option.bind_some, hset]
      rfl
    · rw [hbits', hbits, hashBits_succ hidx]
      simp [Bool.or_assoc]

/-- The first `k` rounds of `contains` find a clear bit exactly when one of
the bits they name is clear. -/
theorem foldlM_bitUnset {f : CVariableFastFilter} (hb : InBounds f) (hash : Uint256) :
    ∀ k, k ≤ 15 → (List.range k).foldlM (fun unset i => do
        let val ← hashWord hash i
        let idx ← f.bitIndex val
        let u ← bitUnset f.vData idx
        pure (unset || u)) false = some (decide (∃ n ∈ f.hashBits hash k, bitSet f.vData n = false))
  | 0, _ => by simp [hashBits]
  | k + 1, hk => by
    obtain ⟨idx, hidx, hlt⟩ := round_spec hb hash (show k < 15 by omega)
    rw [List.range_succ, List.foldlM_append, foldlM_bitUnset hb hash k (by omega)]
    simp only [Option.bind_eq_bind, Option.bind_some, List.foldlM_cons, List.foldlM_nil]
    rw [← Option.bind_assoc, hidx, Option.bind_some, bitUnset_eq hlt, hashBits_succ hidx]
    simp [List.mem_append, or_and_right, exists_or]

/-- The first `k` rounds of `checkAndSet` find a clear bit as `contains` does,
testing each bit before setting it, and set the bits as `insert` does. -/
theorem foldlM_checkAndSet {f : CVariableFastFilter} (hb : InBounds f) (hash : Uint256) :
    ∀ k, k ≤ 15 → ∃ D, (List.range k).foldlM (fun (r : Bool × List UInt8) i => do
        let val ← hashWord hash i
        let idx ← f.bitIndex val
        let u ← bitUnset r.2 idx
        let vData ← setBit r.2 idx
        pure (r.1 || u, vData)) (false, f.vData) =
          some (decide (∃ n ∈ f.hashBits hash k, bitSet f.vData n = false), D) ∧
      D.length = f.vData.length ∧ ∀ n, bitSet D n = (bitSet f.vData n || decide (n ∈ f.hashBits hash k))
  | 0, _ => ⟨f.vData, by simp [hashBits], rfl, fun n => by simp [hashBits]⟩
  | k + 1, hk => by
    obtain ⟨D, hrun, hlen, hbits⟩ := foldlM_checkAndSet hb hash k (by omega)
    obtain ⟨idx, hidx, hlt⟩ := round_spec hb hash (show k < 15 by omega)
    obtain ⟨D', hset, hlen', hbits'⟩ := setBit_eq (show idx.toNat / 8 < D.length from hlen ▸ hlt)
    refine ⟨D', ?_, hlen'.trans hlen, fun n => ?_⟩
    · rw [List.range_succ, List.foldlM_append, hrun]
      simp only [Option.bind_eq_bind, Option.bind_some, List.foldlM_cons, List.foldlM_nil]
      rw [← Option.bind_assoc, hidx, Option.bind_some, bitUnset_eq (hlen ▸ hlt), Option.bind_some, hset,
        Option.bind_some, hashBits_succ hidx, hbits]
      by_cases hmem : idx.toNat ∈ f.hashBits hash k
      · by_cases hclear : bitSet f.vData idx.toNat = false
        · have hex : ∃ n ∈ f.hashBits hash k, bitSet f.vData n = false := ⟨_, hmem, hclear⟩
          simp [hex]
        · simp [hmem, hclear, List.mem_append, or_and_right, exists_or]
      · simp [hmem, List.mem_append, or_and_right, exists_or]
    · rw [hbits', hbits, hashBits_succ hidx]
      simp [Bool.or_assoc]

/-! ## The operations -/

section operations

variable {f : CVariableFastFilter} (hb : InBounds f) (hn : f.nHashFuncs.toNat < 16) (hash : Uint256)
include hb hn

/-- `insert` sets the bits that the hash names and no other. -/
theorem insert_spec :
    ∃ D, f.insert hash = some { f with vData := D } ∧ D.length = f.vData.length ∧
      ∀ n, bitSet D n = (bitSet f.vData n || decide (n ∈ f.hashBits hash f.nHashFuncs.toNat)) := by
  obtain ⟨D, hrun, hlen, hbits⟩ := foldlM_setBit hb hash f.nHashFuncs.toNat (by omega)
  exact ⟨D, by rw [insert, hrun]; rfl, hlen, hbits⟩

/-- `contains` holds exactly when every bit that the hash names is set. -/
theorem contains_spec :
    f.contains hash = some (decide (∀ n ∈ f.hashBits hash f.nHashFuncs.toNat, bitSet f.vData n = true)) := by
  rw [contains, foldlM_bitUnset hb hash f.nHashFuncs.toNat (by omega), decide_exists_clear]
  simp

/-- `checkAndSet` answers whether the hash was not contained, and inserts it. -/
theorem checkAndSet_spec :
    ∃ c g, f.contains hash = some c ∧ f.insert hash = some g ∧ f.checkAndSet hash = some (!c, g) := by
  obtain ⟨D, hrun, hlen, hbits⟩ := foldlM_checkAndSet hb hash f.nHashFuncs.toNat (by omega)
  obtain ⟨D', hins, hlen', hbits'⟩ := insert_spec hb hn hash
  have hD : D = D' := eq_of_bitSet (hlen.trans hlen'.symm) fun n => by rw [hbits, hbits']
  refine ⟨_, _, contains_spec hb hn hash, hins, ?_⟩
  rw [checkAndSet, hrun, hD, decide_exists_clear]
  rfl

end operations

/-- A loop that meets a round undefined from every state is undefined. -/
theorem foldlM_eq_none_of_mem {α β : Type} {g : β → α → Option β} {a : α} (ha : ∀ s, g s a = none) :
    ∀ {l : List α} (s : β), a ∈ l → l.foldlM g s = none
  | b :: l, s, hmem => by
    rw [List.foldlM_cons]
    rcases List.mem_cons.mp hmem with rfl | hl
    · rw [ha]
      rfl
    · cases g s b with
      | none => rfl
      | some s' => exact foldlM_eq_none_of_mem ha s' hl

/-- With 16 hash functions or more, round 15 reads past the hash. -/
theorem loops_undefined_of_sixteen_le {f : CVariableFastFilter} (hn : 16 ≤ f.nHashFuncs.toNat) (hash : Uint256) :
    f.insert hash = none ∧ f.contains hash = none ∧ f.checkAndSet hash = none := by
  have h15 : 15 ∈ List.range f.nHashFuncs.toNat := List.mem_range.mpr (by omega)
  refine ⟨?_, ?_, ?_⟩
  · rw [insert, foldlM_eq_none_of_mem (fun _ => by rw [hashWord_fifteen]; rfl) _ h15]
    rfl
  · rw [contains, foldlM_eq_none_of_mem (fun _ => by rw [hashWord_fifteen]; rfl) _ h15]
    rfl
  · rw [checkAndSet, foldlM_eq_none_of_mem (fun _ => by rw [hashWord_fifteen]; rfl) _ h15]
    rfl

/-- With `nFilterBits = 1`, round 0 takes a remainder by zero. -/
theorem loops_undefined_of_nFilterBits_one {f : CVariableFastFilter} (hbits : f.nFilterBits = 1)
    (hn : 1 ≤ f.nHashFuncs.toNat) (hash : Uint256) :
    f.insert hash = none ∧ f.contains hash = none ∧ f.checkAndSet hash = none := by
  have h0 : 0 ∈ List.range f.nHashFuncs.toNat := List.mem_range.mpr (by omega)
  have hidx : ∀ val, f.bitIndex val = none := fun val => by rw [bitIndex, hbits]; rfl
  have hround : ∀ {γ : Type} (k : UInt32 → Option γ), ((hashWord hash 0).bind fun val =>
      (f.bitIndex val).bind k) = none := fun k => by
    cases hashWord hash 0 <;> simp [hidx]
  refine ⟨?_, ?_, ?_⟩
  · rw [insert, foldlM_eq_none_of_mem (fun _ => by exact hround _) _ h0]
    rfl
  · rw [contains, foldlM_eq_none_of_mem (fun _ => by exact hround _) _ h0]
    rfl
  · rw [checkAndSet, foldlM_eq_none_of_mem (fun _ => by exact hround _) _ h0]
    rfl

/-! ## Runs of inserts -/

/-- `insert` of each hash in turn. -/
def insertAll (f : CVariableFastFilter) (hashes : List Uint256) : Option CVariableFastFilter :=
  hashes.foldlM insert f

/-- The bits a hash names do not depend on `vData`. -/
theorem hashBits_vData (f : CVariableFastFilter) (D : List UInt8) :
    ({ f with vData := D } : CVariableFastFilter).hashBits = f.hashBits := rfl

theorem InBounds.of_length {f : CVariableFastFilter} (hb : InBounds f) {D : List UInt8}
    (hlen : D.length = f.vData.length) : InBounds { f with vData := D } :=
  ⟨hb.two_le, hlen ▸ hb.le_bits⟩

/-- Any run of inserts keeps every field but `vData`, keeps its size, and
leaves set the bits that were set and the bits that each hash names. -/
theorem insertAll_spec (hash : List Uint256) :
    ∀ {f : CVariableFastFilter}, InBounds f → f.nHashFuncs.toNat < 16 → ∃ D,
      f.insertAll hash = some { f with vData := D } ∧ D.length = f.vData.length ∧
      (∀ n, bitSet f.vData n = true → bitSet D n = true) ∧
      ∀ h ∈ hash, ∀ n ∈ f.hashBits h f.nHashFuncs.toNat, bitSet D n = true := by
  induction hash with
  | nil => exact fun _ _ => ⟨_, rfl, rfl, fun _ h => h, fun _ h => absurd h List.not_mem_nil⟩
  | cons h hash ih =>
    intro f hb hn
    obtain ⟨D₁, hins, hlen₁, hbits₁⟩ := insert_spec hb hn h
    obtain ⟨D, hrun, hlen, hmono, hcover⟩ := ih (hb.of_length hlen₁) hn
    refine ⟨D, ?_, hlen.trans hlen₁, fun n hn' => hmono n (by simp [hbits₁, hn']), ?_⟩
    · rw [insertAll, List.foldlM_cons, hins]
      exact hrun
    · intro h' hh' n hn'
      rcases List.mem_cons.mp hh' with rfl | hh'
      · exact hmono n (by simp [hbits₁, hn'])
      · exact hcover h' hh' n hn'

/-- Every hash inserted is contained: the filter answers no only for hashes
never inserted. -/
theorem insertAll_contains {f : CVariableFastFilter} (hb : InBounds f) (hn : f.nHashFuncs.toNat < 16)
    (hash : List Uint256) : ∃ g, f.insertAll hash = some g ∧ InBounds g ∧ g.nHashFuncs = f.nHashFuncs ∧
      g.nFilterBytes = f.nFilterBytes ∧ g.nFilterBits = f.nFilterBits ∧ g.vData.length = f.vData.length ∧
      ∀ h ∈ hash, g.contains h = some true := by
  obtain ⟨D, hrun, hlen, -, hcover⟩ := insertAll_spec hash hb hn
  refine ⟨_, hrun, hb.of_length hlen, rfl, rfl, rfl, hlen, fun h hh => ?_⟩
  rw [contains_spec (hb.of_length hlen) hn, hashBits_vData]
  simpa using hcover h hh

/-! ## Serialization -/

/-- The fields other than `nFilterBytes` read back; `nFilterBytes` becomes
`8 * nFilterBits`. -/
theorem unserialize_serialize (f : CVariableFastFilter) (h1 : 1 ≤ f.nHashFuncs.toNat)
    (h32 : f.nHashFuncs.toNat ≤ 32) (hv : f.vData.length ≤ maxSize) (rest : List UInt8) :
    unserialize (f.serialize ++ rest) = some ({ f with nFilterBytes := (8 * f.nFilterBits).toUInt32 }, rest) := by
  have h8 : f.nHashFuncs.toNat % 256 ^ 1 = f.nHashFuncs.toNat := Nat.mod_eq_of_lt f.nHashFuncs.toNat_lt
  have h64 : f.nFilterBits.toNat % 256 ^ 8 = f.nFilterBits.toNat := Nat.mod_eq_of_lt f.nFilterBits.toNat_lt
  have hcheck : ¬(f.nHashFuncs.toNat < 1 ∨ f.nHashFuncs.toNat > 32) := by omega
  simp only [unserialize, serialize, List.append_assoc, bind_apply, unserializeByteVector_serializeByteVector hv,
    serReaddata8, serWritedata8, serReaddata64, serWritedata64, serReaddata_serWritedata, Option.bind_some, h8, h64,
    hcheck, if_false, pure_apply]
  simp

/-! ## Constructed filters -/

theorem ofSize_nFilterBits {b : UInt32} (hb : b.toNat < 2 ^ 29) (est : Int) :
    (ofSize b est).nFilterBits.toNat = 8 * b.toNat := by
  simp only [ofSize, UInt32.toNat_toUInt64, UInt32.toNat_mul, UInt32.toNat_ofNat]
  omega

theorem ofSize_nHashFuncs (b : UInt32) {est : Int} (hest : est < 16) :
    1 ≤ (ofSize b est).nHashFuncs.toNat ∧ (ofSize b est).nHashFuncs.toNat < 16 := by
  have hmin : (minNHashFunc : Int) = 1 := rfl
  have hlt : (max (minNHashFunc : Int) est).toNat < 16 := by omega
  have hge : 1 ≤ (max (minNHashFunc : Int) est).toNat := by omega
  have hnot : ¬(max (minNHashFunc : Int) est).toNat > maxNHashFunc := by
    simp only [maxNHashFunc]
    omega
  unfold ofSize
  dsimp only
  rw [if_neg hnot, Nat.toUInt8, UInt8.toNat_ofNat']
  omega

theorem ofSize_inBounds {b : UInt32} (hb1 : 1 ≤ b.toNat) (hb : b.toNat < 2 ^ 29) (est : Int) :
    InBounds (ofSize b est) := by
  have hbits := ofSize_nFilterBits hb est
  have hlen : (ofSize b est).vData.length = b.toNat := List.length_replicate
  exact ⟨by omega, by omega⟩

/-- A filter built by the sizing constructor, after any inserts, contains
every hash inserted; read back, it has the same bits, hash functions and
`nFilterBits`, so it answers `contains` the same, but it claims 64 times its
bytes, and its `reset` runs past `vData`. -/
theorem ofSize_roundTrip {b : UInt32} (hb1 : 1 ≤ b.toNat) (hb : b.toNat < 2 ^ 26) {est : Int} (hest : est < 16)
    (hash : List Uint256) :
    ∃ g, (ofSize b est).insertAll hash = some g ∧ (∀ h ∈ hash, g.contains h = some true) ∧
      ∃ g', unserialize g.serialize = some (g', []) ∧ g'.vData = g.vData ∧ g'.nHashFuncs = g.nHashFuncs ∧
        g'.nFilterBits = g.nFilterBits ∧ (∀ h, g'.contains h = g.contains h) ∧
        g'.nFilterBytes.toNat = 64 * b.toNat ∧ g'.reset = none := by
  have hin := ofSize_inBounds hb1 (by omega : b.toNat < 2 ^ 29) est
  obtain ⟨hn1, hn⟩ := ofSize_nHashFuncs b hest
  obtain ⟨g, hrun, -, hnh, -, hnb, hlen, hcont⟩ := insertAll_contains hin hn hash
  have hg1 : 1 ≤ g.nHashFuncs.toNat := hnh ▸ hn1
  have hg32 : g.nHashFuncs.toNat ≤ 32 := by
    have : g.nHashFuncs.toNat < 16 := hnh ▸ hn
    omega
  have hlenb : g.vData.length = b.toNat := hlen.trans List.length_replicate
  have hbits : g.nFilterBits.toNat = 8 * b.toNat := hnb ▸ ofSize_nFilterBits (by omega) est
  have hmax : g.vData.length ≤ maxSize := by
    rw [hlenb, maxSize]
    omega
  have hbytes : ((8 * g.nFilterBits).toUInt32).toNat = 64 * b.toNat := by
    simp only [UInt64.toNat_toUInt32, UInt64.toNat_mul, UInt64.toNat_ofNat, hbits]
    omega
  have hrt := unserialize_serialize g hg1 hg32 hmax []
  rw [List.append_nil] at hrt
  refine ⟨g, hrun, hcont, _, hrt, rfl, rfl, rfl, fun h => rfl, hbytes, ?_⟩
  rw [reset, if_neg]
  dsimp only
  rw [hbytes, hlenb]
  omega

theorem ofSize_roundTrip_oneByte :
    ∃ g, (ofSize 1 1).insertAll [default] = some g ∧ (∀ h ∈ [(default : Uint256)], g.contains h = some true) ∧
      ∃ g', unserialize g.serialize = some (g', []) ∧ g'.vData = g.vData ∧ g'.nHashFuncs = g.nHashFuncs ∧
        g'.nFilterBits = g.nFilterBits ∧ (∀ h, g'.contains h = g.contains h) ∧
        g'.nFilterBytes.toNat = 64 * (1 : UInt32).toNat ∧ g'.reset = none :=
  ofSize_roundTrip (by decide) (by decide) (by decide) [default]

end CVariableFastFilter

open CVariableFastFilter in
/-- The default filter reads back claiming 64 bytes in a vector of one, so
its `reset` is undefined; and the eleven bytes below read as a filter with
`nFilterBits = 1`, on which every `insert` takes a remainder by zero. -/
theorem fastFilter_roundTrip_overruns_reset :
    unserialize init.serialize = some ({ init with nFilterBytes := 64 }, []) ∧ init.reset = some init ∧
      ({ init with nFilterBytes := 64 } : CVariableFastFilter).reset = none ∧
      unserialize [1, 0, 1, 1, 0, 0, 0, 0, 0, 0, 0] = some (⟨[0], 1, 8, 1⟩, []) ∧
      ∀ hash, (⟨[0], 1, 8, 1⟩ : CVariableFastFilter).insert hash = none := by
  have hrt := unserialize_serialize init (by decide) (by decide) (by decide) []
  rw [List.append_nil] at hrt
  exact ⟨hrt, rfl, rfl, rfl, fun hash => (loops_undefined_of_nFilterBits_one rfl (by decide) hash).1⟩

end Membercoin
