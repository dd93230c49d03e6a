import Membercoin.Blockrelay.CompactBlock

/-!
# A compact block reads back what was written

The header, the nonce and each prefilled transaction read back from what
their writers wrote. A short ID of at most 48 bits does, split into 32 and 16
bits; so does a compact block whose sizes and indexes are at most `MAX_SIZE`,
the limit of a `COMPACTSIZE` (`CompactBlock.Encodable`), when the transaction
serialization round-trips (`CompactBlock.unserialize_serialize`).
-/

namespace Membercoin

open ByteCodec

theorem toUInt32_mod_toNat (x : UInt32) : (x.toNat % 256 ^ 4).toUInt32 = x := by
  rw [Nat.mod_eq_of_lt (by simpa using x.toNat_lt), Nat.toUInt32_eq, UInt32.ofNat_toNat]

theorem CBlockHeader.unserialize_serialize (h : CBlockHeader) (rest : List UInt8) :
    CBlockHeader.unserialize (h.serialize ++ rest) = some (h, rest) := by
  simp only [CBlockHeader.unserialize, CBlockHeader.serialize, List.append_assoc, bind_apply, serReaddata32,
    serWritedata32, serReaddata_serWritedata, Option.bind_some, Uint256.unserialize_serialize, pure_apply,
    toUInt32_mod_toNat]

namespace CompactBlock

/-- A short ID of at most 48 bits reads back from its 32 and 16 bits. -/
theorem unserializeShortID_serializeShortID {s : Nat} (hs : s < 2 ^ 48) (rest : List UInt8) :
    unserializeShortID (serializeShortID s ++ rest) = some (s, rest) := by
  have hlo : s &&& 0xffffffff = s % 2 ^ 32 := Nat.and_two_pow_sub_one_eq_mod s 32
  have hhi : (s >>> 32) &&& 0xffff = s / 2 ^ 32 % 2 ^ 16 := by
    rw [Nat.shiftRight_eq_div_pow]
    exact Nat.and_two_pow_sub_one_eq_mod _ 16
  simp only [unserializeShortID, serializeShortID, List.append_assoc, bind_apply, serReaddata32, serReaddata16,
    serWritedata32, serWritedata16, serReaddata_serWritedata, Option.bind_some, pure_apply, hlo, hhi]
  rw [← Nat.shiftLeft_add_eq_or_of_lt (by omega), Nat.shiftLeft_eq]
  congr 2
  omega

variable {Tx : Type} (ops : TxOps Tx)

theorem PrefilledTransaction.unserialize_serialize (hops : ops.RoundTrips) {p : PrefilledTransaction Tx}
    (hp : p.index ≤ maxSize) (rest : List UInt8) :
    PrefilledTransaction.unserialize ops (p.serialize ops ++ rest) = some (p, rest) := by
  have hfit : ¬p.index > 0xffffffff := by unfold maxSize at hp; omega
  simp only [PrefilledTransaction.unserialize, PrefilledTransaction.serialize, List.append_assoc, bind_apply,
    readCompactSize_writeCompactSize hp, Option.bind_some, if_neg hfit, pure_apply, hops p.tx rest]

/-- What a compact block must satisfy to read back: a 64-bit nonce, 48-bit
short IDs, and sizes and indexes that a `COMPACTSIZE` accepts. -/
structure Encodable (cb : CompactBlock Tx) : Prop where
  nonce_lt : cb.nonce < 2 ^ 64
  shortID_lt : ∀ s ∈ cb.shorttxids, s < 2 ^ 48
  shorttxids_le : cb.shorttxids.length ≤ maxSize
  prefilledtxn_le : cb.prefilledtxn.length ≤ maxSize
  index_le : ∀ p ∈ cb.prefilledtxn, p.index ≤ maxSize

/-- A compact block reads back from what was written for it. -/
theorem unserialize_serialize (hops : ops.RoundTrips) {cb : CompactBlock Tx} (h : cb.Encodable)
    (rest : List UInt8) : CompactBlock.unserialize ops (cb.serialize ops ++ rest) = some (cb, rest) := by
  have hshort := readMany_flatten serializeShortID cb.shorttxids
    (fun s hs r => unserializeShortID_serializeShortID (h.shortID_lt s hs) r)
    (serializeStdVector (PrefilledTransaction.serialize ops) cb.prefilledtxn ++ rest)
  have hpre := unserializeStdVector_serializeStdVector (PrefilledTransaction.serialize ops)
    (fun p hp r => PrefilledTransaction.unserialize_serialize ops hops (h.index_le p hp) r) h.prefilledtxn_le rest
  simp only [CompactBlock.unserialize, CompactBlock.serialize, List.append_assoc, bind_apply,
    CBlockHeader.unserialize_serialize, Option.bind_some, serReaddata64, serWritedata64, serReaddata_serWritedata,
    readCompactSize_writeCompactSize h.shorttxids_le, hshort, hpre, pure_apply,
    Nat.mod_eq_of_lt (show cb.nonce < 256 ^ 8 from h.nonce_lt)]

end CompactBlock

end Membercoin
