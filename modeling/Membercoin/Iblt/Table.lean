import Membercoin.Serialize.Stream
import Membercoin.Consensus.TxVerify

/-!
# Serializing an IBLT (iblt.h)

A `CIblt` writes its version as a `CompactSize`, then (from version 1) its
hash seeds and salt, then `n_hash`, `is_modified`, and its cells. Version 2
writes each cell's `keyCheck` and `count` as `CompactSize`s of their 64-bit
casts, and reads them back through `ReadCompactSizeWithLimit` with the limit
`MAX_SIZE = 2 ^ 28`. A negative `count` casts to a number near `2 ^ 64`, so a
version-2 table in which some cell has been erased more often than inserted
does not read back, and neither does one whose `keyCheck` passes `2 ^ 28`,
which with the default mask is most checksums. After reading, a loop is
meant to mask every `keyCheck` with `keycheckMask`, but it iterates over
copies of the cells and changes nothing.

Versions 0 and 1 write the cells with fixed widths (`HashTableEntryStaticChk`)
and always read back; reading sets `keycheckMask` to `MAX_CHECKSUM_MASK`.

The object read into keeps what the stream does not carry. MurmurHash3 is a
parameter, and so are the two table lookups of `resize` (`OptimalNHash` and
the `float` product with `OptimalOverhead`).

A well-formed version-2 table reads back exactly when every cell's `count`
lies in `[0, MAX_SIZE]` and its `keyCheck` in `[0, MAX_SIZE]`
(`unserialize_serialize_v2`, `unserialize_serialize_v2_eq_none`); a version-1
table reads back with the default mask (`unserialize_serialize_v1`). A fresh
version-2 table after any `erase` has a negative count
(`ofParams_erase_unserialize_eq_none`).
-/

namespace Membercoin

open ByteCodec

/-- `BaseHashTableEntry`: a cell, with `count` an `int32_t`. -/
structure HashTableEntry where
  count : Int
  keySum : UInt64
  keyCheck : UInt32
  valueSum : List UInt8
  deriving Repr, DecidableEq

/-- A default-constructed cell. -/
instance : Inhabited HashTableEntry := ⟨⟨0, 0, 0, []⟩⟩

/-- `x` cast to a `w`-bit unsigned integer, in two's complement. -/
def bitsOfInt (w : Nat) (x : Int) : Nat := (x % 2 ^ w).toNat

/-- An unsigned value stored in an `int32_t`: its low 32 bits, in two's
complement. -/
def int32OfBits (v : Nat) : Int := if v % 2 ^ 32 < 2 ^ 31 then v % 2 ^ 32 else v % 2 ^ 32 - 2 ^ 32

namespace HashTableEntry

/-- `HashTableEntry::SerializationOp` writing, the version-2 cell:
`keySum`, then `keyCheck` and `count` cast to `uint64_t` as `CompactSize`s,
then `valueSum`. -/
def serialize (e : HashTableEntry) : List UInt8 :=
  serWritedata64 e.keySum.toNat ++ writeCompactSize e.keyCheck.toNat ++ writeCompactSize (bitsOfInt 64 e.count) ++
    serializeByteVector e.valueSum

/-- `HashTableEntry::SerializationOp` reading, through `COMPACTSIZE`, whose
limit is `MAX_SIZE`. -/
def unserialize : Reader HashTableEntry := do
  let keySum ← serReaddata64
  let keyCheck64 ← readCompactSizeWithLimit maxSize
  let count64 ← readCompactSizeWithLimit maxSize
  let valueSum ← unserializeByteVector
  pure ⟨int32OfBits count64, keySum.toUInt64, keyCheck64.toUInt32, valueSum⟩

/-- `HashTableEntryStaticChk::SerializationOp` writing: the fixed-width cell
of versions 0 and 1. -/
def serializeStaticChk (e : HashTableEntry) : List UInt8 :=
  serWritedata32 (bitsOfInt 32 e.count) ++ serWritedata64 e.keySum.toNat ++ serWritedata32 e.keyCheck.toNat ++
    serializeByteVector e.valueSum

/-- `HashTableEntryStaticChk::SerializationOp` reading. -/
def unserializeStaticChk : Reader HashTableEntry := do
  let count ← serReaddata32
  let keySum ← serReaddata64
  let keyCheck ← serReaddata32
  let valueSum ← unserializeByteVector
  pure ⟨int32OfBits count, keySum.toUInt64, keyCheck.toUInt32, valueSum⟩

/-- `BaseHashTableEntry::empty`. -/
def empty (e : HashTableEntry) : Bool := e.count == 0 && e.keySum == 0 && e.keyCheck == 0

/-- `BaseHashTableEntry::addValue`: `valueSum`, grown to the length of `v`,
xor `v`. -/
def addValue (valueSum v : List UInt8) : List UInt8 :=
  if v = [] then valueSum
  else
    let padded := valueSum ++ List.replicate (v.length - valueSum.length) 0
    (List.range padded.length).map fun i => padded.getD i 0 ^^^ v.getD i 0

end HashTableEntry

/-- `IBLT_MAX_VERSION_SUPPORTED`. -/
def ibltMaxVersionSupported : Nat := 2

/-- `MAX_CHECKSUM_MASK`. -/
def maxChecksumMask : Nat := 0xffffffff

/-- `N_HASHCHECK`, the seed of the key checksum. -/
def nHashCheck : Nat := 11

/-- The fields of a `CIblt`. `mapHashIdxSeeds`, a `std::map<uint8_t, uint32_t>`,
is the list of its entries in key order. -/
structure CIblt where
  salt : Nat
  version : Nat
  n_hash : Nat
  is_modified : Bool
  keycheckMask : Nat
  hashTable : List HashTableEntry
  mapHashIdxSeeds : List (Nat × Nat)
  deriving Repr, DecidableEq

namespace CIblt

/-- The default constructor `CIblt()`. -/
def init : CIblt := ⟨0, 0, 1, false, maxChecksumMask, [], []⟩

/-- Serializing a `std::map<uint8_t, uint32_t>`: the size, then each key and
value. -/
def serializeSeeds (m : List (Nat × Nat)) : List UInt8 :=
  writeCompactSize m.length ++ (m.map fun p => serWritedata8 p.1 ++ serWritedata32 p.2).flatten

/-- `std::map::insert` with a hint: a key already present keeps its value. -/
def insertSeed : List (Nat × Nat) → Nat × Nat → List (Nat × Nat)
  | [], p => [p]
  | q :: m, p => if p.1 < q.1 then p :: q :: m else if p.1 = q.1 then q :: m else q :: insertSeed m p

/-- Reading a `std::map<uint8_t, uint32_t>`: clear it, then insert each pair. -/
def unserializeSeeds : Reader (List (Nat × Nat)) := do
  let nSize ← readCompactSize
  let items ← readMany (do
    let k ← serReaddata8
    let v ← serReaddata32
    pure (k, v)) (nSize % 2 ^ 32)
  pure (items.foldl insertSeed [])

/-- `CIblt::SerializationOp` writing. -/
def serialize (t : CIblt) : List UInt8 :=
  writeCompactSize t.version ++
    (if t.version > 0 then serializeSeeds t.mapHashIdxSeeds ++ serWritedata32 t.salt else []) ++
    serWritedata8 t.n_hash ++ serWritedata8 t.is_modified.toNat ++
    (if t.version ≥ 2 then
      serWritedata32 t.keycheckMask ++ serializeStdVector HashTableEntry.serialize t.hashTable
    else serializeStdVector HashTableEntry.serializeStaticChk t.hashTable)

/-- `CIblt::SerializationOp` reading into `t`. The masking loop after a
version-2 table runs over copies of the cells, so it leaves `hashTable` as
read; a version-0 or version-1 table is appended to the cells `t` holds. -/
def unserialize (t : CIblt) : Reader CIblt := do
  let version ← readCompactSize
  let (mapHashIdxSeeds, salt) ← if version > 0 then do
      let m ← unserializeSeeds
      let salt ← serReaddata32
      pure (m, salt)
    else pure (t.mapHashIdxSeeds, t.salt)
  if version > ibltMaxVersionSupported then failure
  let n_hash ← serReaddata8
  if n_hash = 0 then failure
  let is_modified ← serReaddata8
  if version ≥ 2 then do
    let keycheckMask ← serReaddata32
    let hashTable ← unserializeStdVector HashTableEntry.unserialize
    pure ⟨salt, version, n_hash, is_modified ≠ 0, keycheckMask, hashTable, mapHashIdxSeeds⟩
  else do
    let hashTableChk ← unserializeStdVector HashTableEntry.unserializeStaticChk
    pure ⟨salt, version, n_hash, is_modified ≠ 0, maxChecksumMask, t.hashTable ++ hashTableChk, mapHashIdxSeeds⟩

variable (murmurHash3 : Nat → List UInt8 → Nat)

/-- `ToVec` of a `uint64_t`: its eight bytes, least significant first. -/
def toVec (k : UInt64) : List UInt8 := leBytes k.toNat 8

/-- `CIblt::saltedHashValue`; `mapHashIdxSeeds.at` of a missing key throws. -/
def saltedHashValue (t : CIblt) (hashFuncIdx : Nat) (kvec : List UInt8) : Option Nat :=
  if t.version > 0 then (t.mapHashIdxSeeds.lookup hashFuncIdx).map fun seed => murmurHash3 seed kvec
  else some (murmurHash3 hashFuncIdx kvec)

/-- One cell update of `_insert`. -/
def updateEntry (t : CIblt) (plusOrMinus : Int) (k : UInt64) (kchk : Nat) (v : List UInt8)
    (entry : HashTableEntry) : Option HashTableEntry := do
  let count ← checkedInt32 (entry.count + plusOrMinus)
  let entry : HashTableEntry :=
    { entry with count, keySum := entry.keySum ^^^ k, keyCheck := (entry.keyCheck ^^^ kchk.toUInt32) &&& t.keycheckMask.toUInt32 }
  pure { entry with valueSum := if entry.empty then [] else HashTableEntry.addValue entry.valueSum v }

/-- `CIblt::_insert`: each hash function selects a cell in its own block of
`bucketsPerHash` cells. -/
def insertEntry (t : CIblt) (plusOrMinus : Int) (k : UInt64) (v : List UInt8) : Option CIblt :=
  if t.n_hash = 0 then some t
  else
    let bucketsPerHash := t.hashTable.length / t.n_hash
    if bucketsPerHash = 0 then some t
    else do
      let kvec := toVec k
      let kchk := murmurHash3 nHashCheck kvec
      let hashTable ← (List.range t.n_hash).foldlM (fun hashTable i => do
        let h ← saltedHashValue murmurHash3 t i kvec
        let idx := i * bucketsPerHash + h % 2 ^ 32 % bucketsPerHash
        let entry ← hashTable[idx]?
        let entry ← updateEntry t plusOrMinus k kchk v entry
        pure (hashTable.set idx entry)) t.hashTable
      pure { t with hashTable, is_modified := true }

/-- `CIblt::insert`. -/
def insert (t : CIblt) (k : UInt64) (v : List UInt8) : Option CIblt := insertEntry murmurHash3 t 1 k v

/-- `CIblt::erase`. -/
def erase (t : CIblt) (k : UInt64) (v : List UInt8) : Option CIblt := insertEntry murmurHash3 t (-1) k v

/-- `CIblt::resize` after its table lookups: `n_hash` is `OptimalNHash` and
`nEntries` the `size_t` of the `float` product with `OptimalOverhead`. The
loop that rounds `nEntries` up to a multiple of `n_hash` divides by zero when
`n_hash` is zero. -/
def resize (t : CIblt) (nHash nEntries : Nat) : Option CIblt :=
  if t.is_modified then none
  else if nHash = 0 then none
  else
    let seeds := (List.range nHash).map fun i => (i, t.salt % (maxChecksumMask - nHash) + i)
    some { t with n_hash := nHash, mapHashIdxSeeds := seeds,
                  hashTable := List.replicate ((nEntries + nHash - 1) / nHash * nHash) default }

/-- `CIblt(_expectedNumEntries, _salt, _version, _keycheckMask)`. -/
def ofParams (salt version keycheckMask nHash nEntries : Nat) : Option CIblt :=
  resize ⟨salt, version, 0, false, keycheckMask, [], []⟩ nHash nEntries

end CIblt

/-! ## Cells -/

section cells

theorem int32OfBits_bitsOfInt {w : Nat} (hw : w = 32 ∨ w = 64) {x : Int} (hx : -2 ^ 31 ≤ x ∧ x < 2 ^ 31) :
    int32OfBits (bitsOfInt w x) = x := by
  rcases hw with rfl | rfl <;>
  · unfold int32OfBits bitsOfInt
    split_ifs <;> omega

/-- A version-2 cell reads back when its `count` and `keyCheck` fit the
`CompactSize` limit. -/
theorem HashTableEntry.unserialize_serialize (e : HashTableEntry) (hcount : 0 ≤ e.count ∧ e.count ≤ maxSize)
    (hcheck : e.keyCheck.toNat ≤ maxSize) (hv : e.valueSum.length ≤ maxSize) (rest : List UInt8) :
    HashTableEntry.unserialize (e.serialize ++ rest) = some (e, rest) := by
  have hmax : maxSize = 2 ^ 28 := rfl
  have hbits : bitsOfInt 64 e.count ≤ maxSize := by
    unfold bitsOfInt
    omega
  have hkey : e.keySum.toNat % 256 ^ 8 = e.keySum.toNat := Nat.mod_eq_of_lt e.keySum.toNat_lt
  simp only [HashTableEntry.unserialize, HashTableEntry.serialize, List.append_assoc, bind_apply, serReaddata64,
    serWritedata64, serReaddata_serWritedata, Option.bind_some, hkey,
    readCompactSizeWithLimit_writeCompactSize maxSize (lt_of_le_of_lt hcheck (by decide)), if_pos hcheck,
    readCompactSizeWithLimit_writeCompactSize maxSize (lt_of_le_of_lt hbits (by decide)), if_pos hbits,
    unserializeByteVector_serializeByteVector hv, pure_apply]
  rw [int32OfBits_bitsOfInt (Or.inr rfl) (by omega)]
  simp

/-- A version-2 cell with a negative `count`, or a `count` or `keyCheck`
above `MAX_SIZE`, does not read back. -/
theorem HashTableEntry.unserialize_serialize_eq_none (e : HashTableEntry) (hcount : -2 ^ 31 ≤ e.count ∧ e.count < 2 ^ 31)
    (hbad : e.count < 0 ∨ maxSize < e.count ∨ maxSize < e.keyCheck.toNat) (rest : List UInt8) :
    HashTableEntry.unserialize (e.serialize ++ rest) = none := by
  have hmax : maxSize = 2 ^ 28 := rfl
  have hkey : e.keySum.toNat % 256 ^ 8 = e.keySum.toNat := Nat.mod_eq_of_lt e.keySum.toNat_lt
  have hlt : bitsOfInt 64 e.count < 2 ^ 64 := by
    unfold bitsOfInt
    omega
  by_cases hcheck : e.keyCheck.toNat ≤ maxSize
  · have hbits : ¬bitsOfInt 64 e.count ≤ maxSize := by
      unfold bitsOfInt
      omega
    simp only [HashTableEntry.unserialize, HashTableEntry.serialize, List.append_assoc, bind_apply, serReaddata64,
      serWritedata64, serReaddata_serWritedata, Option.bind_some, hkey,
      readCompactSizeWithLimit_writeCompactSize maxSize (lt_of_le_of_lt hcheck (by decide)), if_pos hcheck,
      readCompactSizeWithLimit_writeCompactSize maxSize hlt, if_neg hbits, Option.bind_none]
  · simp only [HashTableEntry.unserialize, HashTableEntry.serialize, List.append_assoc, bind_apply, serReaddata64,
      serWritedata64, serReaddata_serWritedata, Option.bind_some, hkey,
      readCompactSizeWithLimit_writeCompactSize maxSize (e.keyCheck.toNat_lt.trans (by decide)), if_neg hcheck,
      Option.bind_none]

/-- A fixed-width cell always reads back. -/
theorem HashTableEntry.unserializeStaticChk_serializeStaticChk (e : HashTableEntry)
    (hcount : -2 ^ 31 ≤ e.count ∧ e.count < 2 ^ 31) (hv : e.valueSum.length ≤ maxSize) (rest : List UInt8) :
    HashTableEntry.unserializeStaticChk (e.serializeStaticChk ++ rest) = some (e, rest) := by
  have hbits : bitsOfInt 32 e.count % 256 ^ 4 = bitsOfInt 32 e.count := by
    unfold bitsOfInt
    omega
  have hkey : e.keySum.toNat % 256 ^ 8 = e.keySum.toNat := Nat.mod_eq_of_lt e.keySum.toNat_lt
  have hcheck : e.keyCheck.toNat % 256 ^ 4 = e.keyCheck.toNat := Nat.mod_eq_of_lt e.keyCheck.toNat_lt
  simp only [HashTableEntry.unserializeStaticChk, HashTableEntry.serializeStaticChk, List.append_assoc, bind_apply,
    serReaddata32, serReaddata64, serWritedata32, serWritedata64, serReaddata_serWritedata, Option.bind_some, hbits,
    hkey, hcheck, unserializeByteVector_serializeByteVector hv, pure_apply]
  rw [int32OfBits_bitsOfInt (Or.inl rfl) hcount]
  simp

end cells

/-! ## Tables -/

namespace CIblt

/-- What every table a constructor builds satisfies: the fields fit their C++
types, the seeds are a map in key order, and every size fits `MAX_SIZE`. -/
structure WellFormed (t : CIblt) : Prop where
  salt_lt : t.salt < 2 ^ 32
  version_le : t.version ≤ maxSize
  n_hash_pos : 1 ≤ t.n_hash
  n_hash_lt : t.n_hash < 256
  keycheckMask_lt : t.keycheckMask < 2 ^ 32
  seeds_lt : ∀ p ∈ t.mapHashIdxSeeds, p.1 < 256 ∧ p.2 < 2 ^ 32
  seeds_sorted : t.mapHashIdxSeeds.Pairwise fun p q => p.1 < q.1
  seeds_length : t.mapHashIdxSeeds.length ≤ maxSize
  hashTable_length : t.hashTable.length ≤ maxSize
  count_isInt32 : ∀ e ∈ t.hashTable, -2 ^ 31 ≤ e.count ∧ e.count < 2 ^ 31
  valueSum_length : ∀ e ∈ t.hashTable, e.valueSum.length ≤ maxSize

theorem insertSeed_of_lt {p : Nat × Nat} :
    ∀ {m : List (Nat × Nat)}, (∀ q ∈ m, q.1 < p.1) → insertSeed m p = m ++ [p]
  | [], _ => rfl
  | q :: m, h => by
    have hq := h q List.mem_cons_self
    rw [insertSeed, if_neg (by omega), if_neg (by omega), insertSeed_of_lt fun r hr => h r (List.mem_cons_of_mem _ hr)]
    rfl

/-- Inserting the entries of a map in key order rebuilds it. -/
theorem foldl_insertSeed :
    ∀ (l m : List (Nat × Nat)), (m ++ l).Pairwise (fun p q => p.1 < q.1) → l.foldl insertSeed m = m ++ l
  | [], m, _ => by simp
  | p :: l, m, h => by
    have hlt : ∀ q ∈ m, q.1 < p.1 := fun q hq => (List.pairwise_append.mp h).2.2 q hq p List.mem_cons_self
    have h' : ((m ++ [p]) ++ l).Pairwise (fun p q => p.1 < q.1) := by simpa using h
    rw [List.foldl_cons, insertSeed_of_lt hlt, foldl_insertSeed l _ h', List.append_assoc, List.singleton_append]

theorem unserializeSeeds_serializeSeeds {m : List (Nat × Nat)} (hlt : ∀ p ∈ m, p.1 < 256 ∧ p.2 < 2 ^ 32)
    (hsorted : m.Pairwise fun p q => p.1 < q.1) (hm : m.length ≤ maxSize) (rest : List UInt8) :
    unserializeSeeds (serializeSeeds m ++ rest) = some (m, rest) := by
  have hlen : m.length % 2 ^ 32 = m.length := Nat.mod_eq_of_lt (Nat.lt_of_le_of_lt hm (by decide))
  have hpair : ∀ p ∈ m, ∀ s, (do
      let k ← serReaddata8
      let v ← serReaddata32
      pure (k, v) : Reader (Nat × Nat)) ((serWritedata8 p.1 ++ serWritedata32 p.2) ++ s) = some (p, s) := by
    intro p hp s
    have hk : p.1 % 256 ^ 1 = p.1 := Nat.mod_eq_of_lt (hlt p hp).1
    have hv : p.2 % 256 ^ 4 = p.2 := Nat.mod_eq_of_lt (hlt p hp).2
    simp only [serReaddata8, serReaddata32, serWritedata8, serWritedata32, List.append_assoc, bind_apply,
      serReaddata_serWritedata, Option.bind_some, hk, hv, pure_apply]
  have hfold := foldl_insertSeed m [] (by simpa using hsorted)
  rw [List.nil_append] at hfold
  simp only [unserializeSeeds, serializeSeeds, List.append_assoc, bind_apply, readCompactSize_writeCompactSize hm,
    Option.bind_some, hlen, readMany_flatten _ m hpair, pure_apply, hfold]


section roundTrip

variable {t : CIblt} (hw : t.WellFormed) (t0 : CIblt) (rest : List UInt8)
include hw

/-- Reading a version-2 table reads its header back and then its cells. -/
theorem unserialize_serialize_v2_eq (hv : t.version = 2) :
    t0.unserialize (t.serialize ++ rest) =
      (unserializeStdVector HashTableEntry.unserialize (serializeStdVector HashTableEntry.serialize t.hashTable ++ rest)).map
        fun r => ({ t with hashTable := r.1 }, r.2) := by
  have hsalt : t.salt % 256 ^ 4 = t.salt := Nat.mod_eq_of_lt hw.salt_lt
  have hn : t.n_hash % 256 ^ 1 = t.n_hash := Nat.mod_eq_of_lt hw.n_hash_lt
  have hmod : t.is_modified.toNat % 256 ^ 1 = t.is_modified.toNat := by cases t.is_modified <;> rfl
  have hmask : t.keycheckMask % 256 ^ 4 = t.keycheckMask := Nat.mod_eq_of_lt hw.keycheckMask_lt
  have hn0 : ¬t.n_hash = 0 := by have := hw.n_hash_pos; omega
  simp only [unserialize, serialize, hv, List.append_assoc, bind_apply,
    readCompactSize_writeCompactSize (show (2 : Nat) ≤ maxSize by decide), Option.bind_some,
    if_pos (show (2 : Nat) > 0 by decide), if_pos (show (2 : Nat) ≥ 2 by decide),
    unserializeSeeds_serializeSeeds hw.seeds_lt hw.seeds_sorted hw.seeds_length, serReaddata32, serWritedata32,
    serReaddata8, serWritedata8, serReaddata_serWritedata, hsalt, hn, hmod, hmask, pure_apply,
    if_neg (show ¬(2 : Nat) > ibltMaxVersionSupported by decide), if_neg hn0]
  cases unserializeStdVector HashTableEntry.unserialize (serializeStdVector HashTableEntry.serialize t.hashTable ++ rest) with
  | none => rfl
  | some r =>
    obtain ⟨salt, version, n_hash, is_modified, keycheckMask, hashTable, seeds⟩ := t
    subst hv
    cases is_modified <;> rfl

/-- A version-2 table whose cells fit the `CompactSize` limit reads back. -/
theorem unserialize_serialize_v2 (hv : t.version = 2)
    (hcells : ∀ e ∈ t.hashTable, 0 ≤ e.count ∧ e.count ≤ maxSize ∧ e.keyCheck.toNat ≤ maxSize) :
    t0.unserialize (t.serialize ++ rest) = some (t, rest) := by
  rw [unserialize_serialize_v2_eq hw t0 rest hv, unserializeStdVector_serializeStdVector HashTableEntry.serialize
    (fun e he => HashTableEntry.unserialize_serialize e ⟨(hcells e he).1, (hcells e he).2.1⟩ (hcells e he).2.2
      (hw.valueSum_length e he)) hw.hashTable_length]
  rfl

/-- A version-2 table with a cell whose `count` is negative, or whose `count`
or `keyCheck` passes `MAX_SIZE`, does not read back. -/
theorem unserialize_serialize_v2_eq_none (hv : t.version = 2)
    (hbad : ∃ e ∈ t.hashTable, e.count < 0 ∨ maxSize < e.count ∨ maxSize < e.keyCheck.toNat) :
    t0.unserialize (t.serialize ++ rest) = none := by
  have hread : ∀ e ∈ t.hashTable, (∀ s, HashTableEntry.unserialize (e.serialize ++ s) = some (e, s)) ∨
      ∀ s, HashTableEntry.unserialize (e.serialize ++ s) = none := by
    intro e he
    by_cases hok : 0 ≤ e.count ∧ e.count ≤ maxSize ∧ e.keyCheck.toNat ≤ maxSize
    · exact .inl (HashTableEntry.unserialize_serialize e ⟨hok.1, hok.2.1⟩ hok.2.2 (hw.valueSum_length e he))
    · exact .inr (HashTableEntry.unserialize_serialize_eq_none e (hw.count_isInt32 e he) (by omega))
  obtain ⟨e, he, hbad⟩ := hbad
  rw [unserialize_serialize_v2_eq hw t0 rest hv, unserializeStdVector_serializeStdVector_eq_none
    HashTableEntry.serialize hread ⟨e, he, HashTableEntry.unserialize_serialize_eq_none e (hw.count_isInt32 e he) hbad⟩
    hw.hashTable_length]
  rfl

/-- A version-1 table reads back with `keycheckMask` reset to
`MAX_CHECKSUM_MASK` and its cells appended to those of the object read into. -/
theorem unserialize_serialize_v1 (hv : t.version = 1) :
    t0.unserialize (t.serialize ++ rest) =
      some ({ t with keycheckMask := maxChecksumMask, hashTable := t0.hashTable ++ t.hashTable }, rest) := by
  have hsalt : t.salt % 256 ^ 4 = t.salt := Nat.mod_eq_of_lt hw.salt_lt
  have hn : t.n_hash % 256 ^ 1 = t.n_hash := Nat.mod_eq_of_lt hw.n_hash_lt
  have hmod : t.is_modified.toNat % 256 ^ 1 = t.is_modified.toNat := by cases t.is_modified <;> rfl
  have hn0 : ¬t.n_hash = 0 := by have := hw.n_hash_pos; omega
  simp only [unserialize, serialize, hv, List.append_assoc, bind_apply,
    readCompactSize_writeCompactSize (show (1 : Nat) ≤ maxSize by decide), Option.bind_some,
    if_pos (show (1 : Nat) > 0 by decide), if_neg (show ¬(1 : Nat) ≥ 2 by decide),
    unserializeSeeds_serializeSeeds hw.seeds_lt hw.seeds_sorted hw.seeds_length, serReaddata32, serWritedata32,
    serReaddata8, serWritedata8, serReaddata_serWritedata, hsalt, hn, hmod, pure_apply,
    if_neg (show ¬(1 : Nat) > ibltMaxVersionSupported by decide), if_neg hn0,
    unserializeStdVector_serializeStdVector HashTableEntry.serializeStaticChk
      (fun e he => HashTableEntry.unserializeStaticChk_serializeStaticChk e (hw.count_isInt32 e he)
        (hw.valueSum_length e he)) hw.hashTable_length]
  obtain ⟨salt, version, n_hash, is_modified, keycheckMask, hashTable, seeds⟩ := t
  subst hv
  cases is_modified <;> rfl

end roundTrip

/-! ## Erasing from a fresh table -/

section erase

variable (murmurHash3 : Nat → List UInt8 → Nat)

theorem lookup_range_map (f : Nat → Nat) {n j : Nat} (hj : j < n) :
    ((List.range n).map fun i => (i, f i)).lookup j = some (f j) := by
  induction n with
  | zero => omega
  | succ n ih =>
    rw [List.range_succ, List.map_append, List.lookup_append]
    by_cases hjn : j < n
    · rw [ih hjn]
      rfl
    · have hj' : j = n := by omega
      subst hj'
      have hnone : ((List.range j).map fun i => (i, f i)).lookup j = none := by
        rw [List.lookup_eq_none_iff]
        intro p hp
        obtain ⟨a, ha, rfl⟩ := List.mem_map.mp hp
        have := List.mem_range.mp ha
        simp only [bne_iff_ne, ne_eq]
        omega
      simp [hnone]

theorem length_addValue (valueSum v : List UInt8) :
    (HashTableEntry.addValue valueSum v).length = if v = [] then valueSum.length else max valueSum.length v.length := by
  unfold HashTableEntry.addValue
  split_ifs with hv
  · rfl
  · simp only [List.length_map, List.length_range, List.length_append, List.length_replicate]
    omega

/-- The cells of a fresh table after `j` rounds of `erase`: counts between
`-j` and `0`, values no longer than the erased value. -/
def ErasedCells (v : List UInt8) (N j : Nat) (T : List HashTableEntry) : Prop :=
  T.length = N ∧ ∀ e ∈ T, -(j : Int) ≤ e.count ∧ e.count ≤ 0 ∧ e.valueSum.length ≤ v.length

/-- One cell update of `erase` on a cell of `ErasedCells`. -/
theorem updateEntry_erase (t : CIblt) (k : UInt64) (kchk : Nat) (v : List UInt8) {e : HashTableEntry} {j : Nat}
    (hj : j < 256) (hcount : -(j : Int) ≤ e.count ∧ e.count ≤ 0) (hval : e.valueSum.length ≤ v.length) :
    ∃ e', updateEntry t (-1) k kchk v e = some e' ∧ -((j + 1 : Nat) : Int) ≤ e'.count ∧ e'.count < 0 ∧
      e'.valueSum.length ≤ v.length := by
  have hchk : checkedInt32 (e.count + -1) = some (e.count + -1) := by
    rw [checkedInt32, if_pos (by omega)]
  refine ⟨_, by rw [updateEntry, hchk]; rfl, by push_cast; omega, by dsimp only; omega, ?_⟩
  dsimp only
  split_ifs
  · simp
  · rw [length_addValue]
    split_ifs <;> omega

/-- The rounds of `erase` on a fresh table with `n_hash` hash functions: each
finds its seed and a cell of its own block, and leaves a negative count. -/
theorem foldlM_erase {t : CIblt} {N : Nat} (hN : t.n_hash * (N / t.n_hash) = N) (hbph : 0 < N / t.n_hash)
    (hseeds : 0 < t.version → ∀ i < t.n_hash, ∃ seed, t.mapHashIdxSeeds.lookup i = some seed)
    (hn : t.n_hash < 256) (k : UInt64) (v : List UInt8) :
    ∀ j, j ≤ t.n_hash → ∀ T, ErasedCells v N 0 T → ∃ T', (List.range j).foldlM (fun hashTable i => do
        let h ← saltedHashValue murmurHash3 t i (toVec k)
        let idx := i * (N / t.n_hash) + h % 2 ^ 32 % (N / t.n_hash)
        let entry ← hashTable[idx]?
        let entry ← updateEntry t (-1) k (murmurHash3 nHashCheck (toVec k)) v entry
        pure (hashTable.set idx entry)) T = some T' ∧ ErasedCells v N j T' ∧ (0 < j → ∃ e ∈ T', e.count < 0)
  | 0, _, T, hT => ⟨T, rfl, hT, fun h => absurd h (Nat.lt_irrefl 0)⟩
  | j + 1, hj, T, hT => by
    obtain ⟨T₁, hrun, ⟨hlen, hcells⟩, -⟩ := foldlM_erase hN hbph hseeds hn k v j (by omega) T hT
    obtain ⟨h, hh⟩ : ∃ h, saltedHashValue murmurHash3 t j (toVec k) = some h := by
      unfold saltedHashValue
      split_ifs with hv
      · obtain ⟨seed, hseed⟩ := hseeds hv j (by omega)
        exact ⟨_, by rw [hseed]; rfl⟩
      · exact ⟨_, rfl⟩
    have hidx : j * (N / t.n_hash) + h % 2 ^ 32 % (N / t.n_hash) < T₁.length := by
      have hmod := Nat.mod_lt (h % 2 ^ 32) hbph
      have hblock : (j + 1) * (N / t.n_hash) ≤ t.n_hash * (N / t.n_hash) :=
        Nat.mul_le_mul_right _ hj
      rw [hlen]
      nlinarith
    obtain ⟨e, he⟩ : ∃ e, T₁[j * (N / t.n_hash) + h % 2 ^ 32 % (N / t.n_hash)]? = some e :=
      ⟨_, List.getElem?_eq_getElem hidx⟩
    have hmem : e ∈ T₁ := List.mem_of_getElem? he
    obtain ⟨hlo, hhi, hval⟩ := hcells e hmem
    obtain ⟨e', hupd, hlo', hneg, hval'⟩ := updateEntry_erase t k (murmurHash3 nHashCheck (toVec k)) v
      (show j < 256 by omega) ⟨hlo, hhi⟩ hval
    refine ⟨T₁.set (j * (N / t.n_hash) + h % 2 ^ 32 % (N / t.n_hash)) e', ?_,
      ⟨by rw [List.length_set, hlen], fun x hx => ?_⟩, fun _ => ⟨e', ?_, hneg⟩⟩
    · rw [List.range_succ, List.foldlM_append, hrun]
      simp only [Option.bind_eq_bind, Option.bind_some, List.foldlM_cons, List.foldlM_nil, hh, he, hupd]
      rfl
    · rcases List.mem_or_eq_of_mem_set hx with hx | rfl
      · obtain ⟨h1, h2, h3⟩ := hcells x hx
        exact ⟨by push_cast at h1 ⊢; omega, h2, h3⟩
      · exact ⟨hlo', hneg.le, hval'⟩
    · exact List.mem_set hidx e'

/-- A fresh version-2 table after any `erase`: some cell has a negative
`count`, so the table does not read back, whatever object it is read into. -/
theorem ofParams_erase_unserialize_eq_none {salt keycheckMask nHash nEntries : Nat} (hsalt : salt < 2 ^ 32)
    (hmask : keycheckMask < 2 ^ 32) (hn : 1 ≤ nHash ∧ nHash < 256) (hN : 1 ≤ nEntries)
    (hsize : (nEntries + nHash - 1) / nHash * nHash ≤ maxSize) (k : UInt64) (v : List UInt8) (hv : v.length ≤ maxSize) :
    ∃ t, (ofParams salt 2 keycheckMask nHash nEntries).bind (fun t => t.erase murmurHash3 k v) = some t ∧
      ∀ (t0 : CIblt) (rest : List UInt8), t0.unserialize (t.serialize ++ rest) = none := by
  have hn0 : nHash ≠ 0 := by omega
  set N := (nEntries + nHash - 1) / nHash * nHash with hNdef
  set seeds := (List.range nHash).map fun i => (i, salt % (maxChecksumMask - nHash) + i) with hseedsdef
  set t : CIblt := ⟨salt, 2, nHash, false, keycheckMask, List.replicate N default, seeds⟩ with htdef
  have hofParams : ofParams salt 2 keycheckMask nHash nEntries = some t := by
    simp only [ofParams, resize, hn0, if_false, Bool.false_eq_true]
    rfl
  have hbph : N / nHash = (nEntries + nHash - 1) / nHash := Nat.mul_div_cancel _ (by omega)
  have hbph0 : 0 < N / nHash := by
    rw [hbph]
    exact Nat.div_pos (by omega) (by omega)
  have hNmul : nHash * (N / nHash) = N := by
    rw [hbph, Nat.mul_comm]
  have hfresh : ErasedCells v N 0 t.hashTable := by
    refine ⟨List.length_replicate, fun e he => ?_⟩
    rw [List.eq_of_mem_replicate he]
    exact ⟨by simp [default], by simp [default], by simp [default]⟩
  have hseeds : 0 < t.version → ∀ i < t.n_hash, ∃ seed, t.mapHashIdxSeeds.lookup i = some seed :=
    fun _ i hi => ⟨_, lookup_range_map _ hi⟩
  obtain ⟨T, hrun, ⟨hlen, hcells⟩, hneg⟩ :=
    foldlM_erase murmurHash3 (show t.n_hash * (N / t.n_hash) = N from hNmul) hbph0 hseeds hn.2 k v nHash le_rfl
      t.hashTable hfresh
  have hlenT : t.hashTable.length = N := List.length_replicate
  have hbph0' : ¬N / nHash = 0 := by omega
  have herase : erase murmurHash3 t k v = some { t with hashTable := T, is_modified := true } := by
    rw [erase, insertEntry, if_neg hn0]
    simp only [hlenT, show t.n_hash = nHash from rfl, hbph0', if_false]
    rw [hrun]
    rfl
  have hwf : WellFormed { t with hashTable := T, is_modified := true } := by
    refine ⟨hsalt, show (2 : Nat) ≤ maxSize by decide, hn.1, hn.2, hmask, ?_, ?_, ?_, by rw [hlen]; exact hsize, ?_, ?_⟩
    · intro p hp
      obtain ⟨i, hi, rfl⟩ := List.mem_map.mp hp
      have hi' := List.mem_range.mp hi
      have hm := Nat.mod_lt salt (show 0 < maxChecksumMask - nHash by simp only [maxChecksumMask]; omega)
      simp only [maxChecksumMask] at hm ⊢
      omega
    · exact List.pairwise_map.mpr (List.pairwise_lt_range.imp fun h => h)
    · show ((List.range nHash).map fun i => (i, salt % (maxChecksumMask - nHash) + i)).length ≤ maxSize
      rw [List.length_map, List.length_range, maxSize]
      omega
    · intro e he
      have := hcells e he
      omega
    · intro e he
      exact (hcells e he).2.2.trans hv
  refine ⟨_, by rw [hofParams, Option.bind_some, herase], fun t0 rest => ?_⟩
  obtain ⟨e, he, hneg'⟩ := hneg hn.1
  exact unserialize_serialize_v2_eq_none hwf t0 rest rfl ⟨e, he, .inl hneg'⟩

end erase
end CIblt

/-- A version-2 table of one cell after one `erase` does not read back; and a
version-2 table with `keycheckMask = 0xff` and a cell whose `keyCheck` is
`0x100` reads back as it is, its `keyCheck` unmasked. -/
theorem iblt_erase_not_unserializable :
    (∃ t, ((CIblt.ofParams 0 2 maxChecksumMask 1 1).bind fun t => t.erase (fun _ _ => 0) 0 []) = some t ∧
      CIblt.init.unserialize t.serialize = none) ∧
    CIblt.init.unserialize (⟨0, 2, 1, false, 0xff, [⟨0, 0, 0x100, []⟩], [(0, 0)]⟩ : CIblt).serialize =
      some (⟨0, 2, 1, false, 0xff, [⟨0, 0, 0x100, []⟩], [(0, 0)]⟩, []) := by
  refine ⟨?_, rfl⟩
  obtain ⟨t, ht, hnone⟩ := @CIblt.ofParams_erase_unserialize_eq_none (fun _ _ => 0) 0 maxChecksumMask 1 1
    (by decide) (by decide) (by decide) le_rfl (by decide) 0 [] (by decide)
  have h := hnone CIblt.init []
  rw [List.append_nil] at h
  exact ⟨t, ht, h⟩

end Membercoin
