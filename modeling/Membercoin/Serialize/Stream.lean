import Membercoin.Lib.ByteCodec

/-!
# Serialization primitives (serialize.h)

The network format writes fixed-width integers little-endian
(`ser_writedata8` to `ser_writedata64`) and sizes as a `CompactSize`: one byte
below 253, else a marker byte 253, 254 or 255 and the size in 2, 4 or 8 bytes.
`ReadCompactSizeWithLimit` rejects a size written longer than necessary and a
size above its limit, `MAX_SIZE` for vectors, so what it accepts is exactly a
canonical encoding (`readCompactSizeWithLimit_eq_some`), of
`GetSizeOfCompactSize` bytes. A `std::vector` is its size
followed by its elements, and a `uint256` its 32 bytes.

Reading past the end of a `CDataStream` and the `std::ios_base::failure`s of
the readers are a failed read (`none`).
-/

namespace Membercoin

open ByteCodec

/-- `ser_writedata8` to `ser_writedata64`: `obj` in `bytes` bytes, little-endian. -/
def serWritedata (bytes obj : Nat) : List UInt8 := leBytes obj bytes

def serWritedata8 (obj : Nat) : List UInt8 := serWritedata 1 obj

def serWritedata16 (obj : Nat) : List UInt8 := serWritedata 2 obj

def serWritedata32 (obj : Nat) : List UInt8 := serWritedata 4 obj

def serWritedata64 (obj : Nat) : List UInt8 := serWritedata 8 obj

/-- `ser_readdata8` to `ser_readdata64`. -/
def serReaddata (bytes : Nat) : Reader Nat := do
  let data ← readBytes bytes
  pure (leValue data)

def serReaddata8 : Reader Nat := serReaddata 1

def serReaddata16 : Reader Nat := serReaddata 2

def serReaddata32 : Reader Nat := serReaddata 4

def serReaddata64 : Reader Nat := serReaddata 8

/-- `MAX_SIZE`, the largest size a vector may be read with. -/
def maxSize : Nat := 0x02000000 * 8

/-- `GetSizeOfCompactSize`: the marker byte and the width of what follows it. -/
def getSizeOfCompactSize (nSize : Nat) : Nat :=
  if nSize < 253 then 1
  else if nSize ≤ 0xffff then 1 + 2
  else if nSize ≤ 0xffffffff then 1 + 4
  else 1 + 8

/-- `WriteCompactSize` of a `uint64_t`. -/
def writeCompactSize (nSize : Nat) : List UInt8 :=
  if nSize < 253 then serWritedata8 nSize
  else if nSize ≤ 0xffff then serWritedata8 253 ++ serWritedata16 nSize
  else if nSize ≤ 0xffffffff then serWritedata8 254 ++ serWritedata32 nSize
  else serWritedata8 255 ++ serWritedata64 nSize

/-- `ReadCompactSizeWithLimit`. -/
def readCompactSizeWithLimit (limit : Nat) : Reader Nat := do
  let chSize ← serReaddata8
  let nSizeRet ←
    if chSize < 253 then pure chSize
    else if chSize = 253 then do
      let nSizeRet ← serReaddata16
      if nSizeRet < 253 then failure else pure nSizeRet
    else if chSize = 254 then do
      let nSizeRet ← serReaddata32
      if nSizeRet < 0x10000 then failure else pure nSizeRet
    else do
      let nSizeRet ← serReaddata64
      if nSizeRet < 0x100000000 then failure else pure nSizeRet
  if nSizeRet > limit then failure else pure nSizeRet

/-- `ReadCompactSize`. -/
def readCompactSize : Reader Nat := readCompactSizeWithLimit maxSize

/-- `Serialize` of a `std::vector`: its size, then its elements. -/
def serializeStdVector {β : Type} (serialize : β → List UInt8) (v : List β) : List UInt8 :=
  writeCompactSize v.length ++ (v.map serialize).flatten

/-- `Unserialize` of a `std::vector`: the size, kept in an `unsigned int`, then
as many elements. -/
def unserializeStdVector {β : Type} (unserialize : Reader β) : Reader (List β) := do
  let nSize ← readCompactSize
  readMany unserialize (nSize % 2 ^ 32)

/-- `Serialize_impl` of a `std::vector<unsigned char>`: the size, then the
bytes as one blob. -/
def serializeByteVector (v : List UInt8) : List UInt8 := writeCompactSize v.length ++ v

/-- `Unserialize_impl` of a `std::vector<unsigned char>`. The blob is read in
blocks of at most 5000000 bytes, and a block past the end of the stream fails,
so the loop reads all `nSize` bytes or fails. -/
def unserializeByteVector : Reader (List UInt8) := do
  let nSize ← readCompactSize
  readBytes (nSize % 2 ^ 32)

/-- A `uint256`: 32 bytes. -/
structure Uint256 where
  data : List UInt8
  length_data : data.length = 32
  deriving DecidableEq

instance : Inhabited Uint256 := ⟨⟨List.replicate 32 0, rfl⟩⟩

/-- `uint256` serializes as its bytes. -/
def Uint256.serialize (a : Uint256) : List UInt8 := a.data

def Uint256.unserialize : Reader Uint256 := do
  let data ← readBytes 32
  if h : data.length = 32 then pure ⟨data, h⟩ else failure

/-- The `uint256` with value `i`, little-endian. -/
def Uint256.ofNat (i : Nat) : Uint256 := ⟨leBytes i 32, length_leBytes i 32⟩

theorem Uint256.ofNat_injective {i j : Nat} (hi : i < 2 ^ 256) (hj : j < 2 ^ 256)
    (h : Uint256.ofNat i = Uint256.ofNat j) : i = j := by
  have hval := congrArg (fun u : Uint256 => leValue u.data) h
  simp only [Uint256.ofNat, leValue_leBytes] at hval
  rwa [Nat.mod_eq_of_lt (by omega), Nat.mod_eq_of_lt (by omega)] at hval

section roundTrip

theorem serReaddata_serWritedata (bytes obj : Nat) (rest : List UInt8) :
    serReaddata bytes (serWritedata bytes obj ++ rest) = some (obj % 256 ^ bytes, rest) := by
  have hread := readBytes_append (leBytes obj bytes) rest
  rw [length_leBytes] at hread
  simp only [serReaddata, serWritedata, bind_apply, hread, Option.bind_some, pure_apply,
    leValue_leBytes]

theorem limitCheck_apply (limit n : Nat) (s : List UInt8) :
    (if n > limit then failure else pure n : Reader Nat) s = if n ≤ limit then some (n, s) else none := by
  by_cases hl : n ≤ limit
  · rw [if_neg (by omega), if_pos hl, pure_apply]
  · rw [if_pos (by omega), if_neg hl, failure_apply]

/-- A size written by `WriteCompactSize` reads back, up to the limit. The
cases are the four widths; in each the marker byte selects the width written and
the canonical check passes. -/
theorem readCompactSizeWithLimit_writeCompactSize (limit : Nat) {nSize : Nat} (hn : nSize < 2 ^ 64)
    (rest : List UInt8) :
    readCompactSizeWithLimit limit (writeCompactSize nSize ++ rest) =
      if nSize ≤ limit then some (nSize, rest) else none := by
  by_cases h1 : nSize < 253
  · have hm : nSize % 256 ^ 1 = nSize := Nat.mod_eq_of_lt (by omega)
    simp only [writeCompactSize, if_pos h1, readCompactSizeWithLimit, serReaddata8, serWritedata8,
      bind_apply, serReaddata_serWritedata, Option.bind_some, hm, pure_apply, limitCheck_apply]
  by_cases h2 : nSize ≤ 0xffff
  · have hm : nSize % 256 ^ 2 = nSize := Nat.mod_eq_of_lt (by omega)
    simp only [writeCompactSize, if_neg h1, if_pos h2, readCompactSizeWithLimit, serReaddata8,
      serReaddata16, serWritedata8, serWritedata16, List.append_assoc, bind_apply,
      serReaddata_serWritedata, Option.bind_some, hm, show (253 : Nat) % 256 ^ 1 = 253 from rfl,
      if_neg (Nat.lt_irrefl 253), if_true, pure_apply, limitCheck_apply]
  by_cases h3 : nSize ≤ 0xffffffff
  · have hm : nSize % 256 ^ 4 = nSize := Nat.mod_eq_of_lt (by omega)
    simp only [writeCompactSize, if_neg h1, if_neg h2, if_pos h3, readCompactSizeWithLimit,
      serReaddata8, serReaddata32, serWritedata8, serWritedata32, List.append_assoc, bind_apply,
      serReaddata_serWritedata, Option.bind_some, hm, show (254 : Nat) % 256 ^ 1 = 254 from rfl,
      if_neg (show ¬(254 : Nat) < 253 by decide), if_neg (show (254 : Nat) ≠ 253 by decide),
      if_true, if_neg (show ¬nSize < 0x10000 by omega), pure_apply, limitCheck_apply]
  · have hm : nSize % 256 ^ 8 = nSize := Nat.mod_eq_of_lt hn
    simp only [writeCompactSize, if_neg h1, if_neg h2, if_neg h3, readCompactSizeWithLimit,
      serReaddata8, serReaddata64, serWritedata8, serWritedata64, List.append_assoc, bind_apply,
      serReaddata_serWritedata, Option.bind_some, hm, show (255 : Nat) % 256 ^ 1 = 255 from rfl,
      if_neg (show ¬(255 : Nat) < 253 by decide), if_neg (show (255 : Nat) ≠ 253 by decide),
      if_neg (show (255 : Nat) ≠ 254 by decide), if_neg (show ¬nSize < 0x100000000 by omega),
      pure_apply, limitCheck_apply]

theorem length_writeCompactSize (nSize : Nat) :
    (writeCompactSize nSize).length = getSizeOfCompactSize nSize := by
  unfold writeCompactSize getSizeOfCompactSize
  split_ifs <;> simp [serWritedata8, serWritedata16, serWritedata32, serWritedata64, serWritedata]

/-- What `ser_readdata` reads is the encoding of its value followed by the rest. -/
theorem serReaddata_eq_some {bytes obj : Nat} {s rest : List UInt8}
    (h : serReaddata bytes s = some (obj, rest)) : s = serWritedata bytes obj ++ rest ∧ obj < 256 ^ bytes := by
  rw [serReaddata, bind_apply, Option.bind_eq_some_iff] at h
  obtain ⟨⟨data, s₁⟩, hread, hpure⟩ := h
  obtain ⟨rfl, hlen⟩ := readBytes_eq_some hread
  cases hpure
  subst hlen
  exact ⟨by rw [serWritedata, leBytes_leValue], leValue_lt data⟩

/-- One marker branch of `ReadCompactSizeWithLimit`: the size read in `bytes`
bytes, checked against the smallest size that needs this marker and then
against the limit. -/
theorem markerRead_eq_some {bytes lo limit nSize : Nat} {s rest : List UInt8}
    (h : (do
        let nSizeRet ← serReaddata bytes
        if nSizeRet < lo then do
            let nSizeRet ← (failure : Reader Nat)
            if nSizeRet > limit then failure else pure nSizeRet
          else do
            let nSizeRet ← pure nSizeRet
            if nSizeRet > limit then failure else pure nSizeRet) s = some (nSize, rest)) :
    s = serWritedata bytes nSize ++ rest ∧ lo ≤ nSize ∧ nSize < 256 ^ bytes ∧ nSize ≤ limit := by
  rw [bind_apply, Option.bind_eq_some_iff] at h
  obtain ⟨⟨n, s₁⟩, hread, h⟩ := h
  obtain ⟨rfl, hn⟩ := serReaddata_eq_some hread
  dsimp only at h
  by_cases hlo : n < lo
  · rw [if_pos hlo, bind_apply, failure_apply, Option.bind_none] at h
    cases h
  · rw [if_neg hlo, bind_apply, pure_apply, Option.bind_some, limitCheck_apply] at h
    split_ifs at h with hl
    cases h
    exact ⟨rfl, by omega, hn, hl⟩

/-- Every size `ReadCompactSizeWithLimit` accepts was read from its canonical
encoding: the marker byte fixes the width, and the check after each wider read
rules out a value a narrower form would carry. -/
theorem readCompactSizeWithLimit_eq_some {limit nSize : Nat} {s rest : List UInt8}
    (h : readCompactSizeWithLimit limit s = some (nSize, rest)) :
    s = writeCompactSize nSize ++ rest ∧ nSize ≤ limit ∧ nSize < 2 ^ 64 := by
  rw [readCompactSizeWithLimit, bind_apply, Option.bind_eq_some_iff] at h
  obtain ⟨⟨chSize, s₁⟩, hch, h⟩ := h
  obtain ⟨rfl, hch256⟩ := serReaddata_eq_some hch
  dsimp only at h
  by_cases h1 : chSize < 253
  · rw [if_pos h1, bind_apply, pure_apply, Option.bind_some, limitCheck_apply] at h
    split_ifs at h with hl
    cases h
    refine ⟨?_, hl, by omega⟩
    rw [writeCompactSize, if_pos h1]
    rfl
  by_cases h2 : chSize = 253
  · subst h2
    rw [if_neg h1, if_pos rfl] at h
    obtain ⟨rfl, hlo, hhi, hl⟩ := markerRead_eq_some h
    refine ⟨?_, hl, by omega⟩
    rw [writeCompactSize, if_neg (by omega), if_pos (by omega)]
    rfl
  by_cases h3 : chSize = 254
  · subst h3
    rw [if_neg h1, if_neg h2, if_pos rfl] at h
    obtain ⟨rfl, hlo, hhi, hl⟩ := markerRead_eq_some h
    refine ⟨?_, hl, by omega⟩
    rw [writeCompactSize, if_neg (by omega), if_neg (by omega), if_pos (by omega)]
    rfl
  · have h4 : chSize = 255 := by omega
    subst h4
    rw [if_neg h1, if_neg h2, if_neg h3] at h
    obtain ⟨rfl, hlo, hhi, hl⟩ := markerRead_eq_some h
    refine ⟨?_, hl, by omega⟩
    rw [writeCompactSize, if_neg (by omega), if_neg (by omega), if_neg (by omega)]
    rfl

theorem readCompactSize_writeCompactSize {nSize : Nat} (hn : nSize ≤ maxSize) (rest : List UInt8) :
    readCompactSize (writeCompactSize nSize ++ rest) = some (nSize, rest) := by
  rw [readCompactSize, readCompactSizeWithLimit_writeCompactSize maxSize
    (Nat.lt_of_le_of_lt hn (by decide)), if_pos hn]

/-- `CompactSize` is a canonical prefix-free code: a size up to the limit reads
back from what `WriteCompactSize` writes, which is `GetSizeOfCompactSize` bytes
long, and every input the reader accepts begins with the encoding of the size
it read. -/
theorem compactSize_prefix_code (limit : Nat) :
    (∀ (nSize : Nat) (rest : List UInt8), nSize < 2 ^ 64 → nSize ≤ limit →
      readCompactSizeWithLimit limit (writeCompactSize nSize ++ rest) = some (nSize, rest) ∧
        (writeCompactSize nSize).length = getSizeOfCompactSize nSize) ∧
    ∀ (s rest : List UInt8) (nSize : Nat), readCompactSizeWithLimit limit s = some (nSize, rest) →
      s = writeCompactSize nSize ++ rest := by
  refine ⟨fun nSize rest hn hl => ⟨?_, length_writeCompactSize nSize⟩,
    fun s rest nSize h => (readCompactSizeWithLimit_eq_some h).1⟩
  rw [readCompactSizeWithLimit_writeCompactSize limit hn rest, if_pos hl]

theorem compactSize_prefix_code_at_253 :
    readCompactSizeWithLimit 253 (writeCompactSize 253 ++ []) = some (253, []) ∧
      (writeCompactSize 253).length = getSizeOfCompactSize 253 :=
  (compactSize_prefix_code 253).1 253 [] (by decide) le_rfl

/-- A vector of at most `MAX_SIZE` elements reads back. -/
theorem unserializeStdVector_serializeStdVector {β : Type} (serialize : β → List UInt8)
    {unserialize : Reader β} {v : List β} (hread : ∀ x ∈ v, ∀ s, unserialize (serialize x ++ s) = some (x, s))
    (hv : v.length ≤ maxSize) (rest : List UInt8) :
    unserializeStdVector unserialize (serializeStdVector serialize v ++ rest) = some (v, rest) := by
  have hlen : v.length % 2 ^ 32 = v.length := Nat.mod_eq_of_lt (Nat.lt_of_le_of_lt hv (by decide))
  simp only [unserializeStdVector, serializeStdVector, List.append_assoc, bind_apply,
    readCompactSize_writeCompactSize hv, Option.bind_some, hlen, readMany_flatten serialize v hread]

/-- A vector of more than `MAX_SIZE` elements does not. -/
theorem unserializeStdVector_serializeStdVector_of_lt {β : Type} (serialize : β → List UInt8)
    (unserialize : Reader β) {v : List β} (hv : maxSize < v.length) (hv64 : v.length < 2 ^ 64)
    (rest : List UInt8) :
    unserializeStdVector unserialize (serializeStdVector serialize v ++ rest) = none := by
  simp only [unserializeStdVector, serializeStdVector, List.append_assoc, bind_apply, readCompactSize,
    readCompactSizeWithLimit_writeCompactSize maxSize hv64, if_neg (Nat.not_le.mpr hv),
    Option.bind_none]

/-- A vector with an element that does not read back does not, when each
other element either reads back or fails. -/
theorem unserializeStdVector_serializeStdVector_eq_none {β : Type} (serialize : β → List UInt8)
    {unserialize : Reader β} {v : List β}
    (hread : ∀ x ∈ v, (∀ s, unserialize (serialize x ++ s) = some (x, s)) ∨ ∀ s, unserialize (serialize x ++ s) = none)
    (hbad : ∃ x ∈ v, ∀ s, unserialize (serialize x ++ s) = none) (hv : v.length ≤ maxSize) (rest : List UInt8) :
    unserializeStdVector unserialize (serializeStdVector serialize v ++ rest) = none := by
  have hlen : v.length % 2 ^ 32 = v.length := Nat.mod_eq_of_lt (Nat.lt_of_le_of_lt hv (by decide))
  simp only [unserializeStdVector, serializeStdVector, List.append_assoc, bind_apply,
    readCompactSize_writeCompactSize hv, Option.bind_some, hlen, readMany_flatten_eq_none serialize v hread hbad]

theorem unserializeByteVector_serializeByteVector {v : List UInt8} (hv : v.length ≤ maxSize)
    (rest : List UInt8) :
    unserializeByteVector (serializeByteVector v ++ rest) = some (v, rest) := by
  have hlen : v.length % 2 ^ 32 = v.length := Nat.mod_eq_of_lt (Nat.lt_of_le_of_lt hv (by decide))
  simp only [unserializeByteVector, serializeByteVector, List.append_assoc, bind_apply,
    readCompactSize_writeCompactSize hv, Option.bind_some, hlen, readBytes_append]

theorem Uint256.unserialize_serialize (a : Uint256) (rest : List UInt8) :
    Uint256.unserialize (a.serialize ++ rest) = some (a, rest) := by
  have hread := readBytes_append a.data rest
  rw [a.length_data] at hread
  simp only [Uint256.unserialize, Uint256.serialize, bind_apply, hread, Option.bind_some,
    dif_pos a.length_data, pure_apply]

end roundTrip

end Membercoin
