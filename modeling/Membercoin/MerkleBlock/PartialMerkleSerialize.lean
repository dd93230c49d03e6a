import Membercoin.MerkleBlock.PartialMerkleTree
import Membercoin.Serialize.Stream
import Membercoin.Lib.BitBuffer

/-!
# Serializing a partial merkle tree

`CPartialMerkleTree::SerializationOp` writes `nTransactions`, the hashes as a
vector, and the flag bits packed low-order first into a vector of bytes.
Reading unpacks every byte into eight bits and clears `fBad`. So the bits come
back padded with `false` to a whole number of bytes
(`unpackBits_packBits`), which is why `ExtractMatches` compares the bits it
used with the bits it holds in whole bytes.

Both vectors are read through `ReadCompactSize`, which refuses a size above
`MAX_SIZE`. A tree with more hashes than that serializes but does not read back
(`unserialize_serialize_of_lt`).
-/

namespace Membercoin

open ByteCodec MerkleTree BitBuffer

/-- The writing branch of `SerializationOp`: `vBytes[p / 8] |= vBits[p] << (p % 8)`
for every bit, into `(vBits.size() + 7) / 8` zero bytes. -/
def packBits (vBits : List Bool) : List UInt8 :=
  (List.range vBits.length).foldl
    (fun vBytes p => vBytes.modify (p / 8) (· ||| ((vBits.getD p false).toNat <<< (p % 8)).toUInt8))
    (List.replicate ((vBits.length + 7) / 8) 0)

/-- The reading branch of `SerializationOp`:
`vBits[p] = (vBytes[p / 8] & (1 << (p % 8))) != 0` for `p < vBytes.size() * 8`. -/
def unpackBits (vBytes : List UInt8) : List Bool :=
  (List.range (vBytes.length * 8)).map fun p => (vBytes.getD (p / 8) 0).toNat &&& 1 <<< (p % 8) != 0

/-- `SerializationOp` writing: `nTransactions`, `vHash`, then the packed bits. -/
def CPartialMerkleTree.serialize (t : CPartialMerkleTree Uint256) : List UInt8 :=
  serWritedata32 t.nTransactions ++ serializeStdVector Uint256.serialize t.vHash ++
    serializeByteVector (packBits t.vBits)

/-- `SerializationOp` reading. -/
def CPartialMerkleTree.unserialize : Reader (CPartialMerkleTree Uint256) := do
  let nTransactions ← serReaddata32
  let vHash ← unserializeStdVector Uint256.unserialize
  let vBytes ← unserializeByteVector
  pure { nTransactions, vHash, vBits := unpackBits vBytes, fBad := false }

/-- The packing loop after its first `m` rounds. -/
def packLoop (bits : List Bool) (m : Nat) : List UInt8 :=
  (List.range m).foldl
    (fun vBytes p => vBytes.modify (p / 8) (· ||| ((bits.getD p false).toNat <<< (p % 8)).toUInt8))
    (List.replicate ((bits.length + 7) / 8) 0)

section packing

theorem getD_modify {β : Type} (l : List β) (q i : Nat) (f : β → β) (d : β) :
    (l.modify q f).getD i d = if q = i ∧ i < l.length then f (l.getD i d) else l.getD i d := by
  by_cases hi : i < l.length
  · have hi' : i < (l.modify q f).length := by rw [List.length_modify]; exact hi
    rw [List.getD_eq_getElem _ _ hi', List.getElem_modify, List.getD_eq_getElem _ _ hi]
    by_cases hq : q = i <;> simp [hq, hi]
  · have hi' : ¬i < (l.modify q f).length := by rw [List.length_modify]; exact hi
    rw [List.getD_eq_default _ _ (by omega), List.getD_eq_default _ _ (by omega)]
    simp [hi]

theorem length_packLoop (bits : List Bool) (m : Nat) : (packLoop bits m).length = (bits.length + 7) / 8 := by
  induction m with
  | zero => simp [packLoop]
  | succ m ih =>
    rw [packLoop, List.range_succ, List.foldl_append, List.foldl_cons, List.foldl_nil, List.length_modify]
    exact ih

theorem toNat_bitByte (b : Bool) {k : Nat} (hk : k < 8) : ((b.toNat <<< k).toUInt8).toNat = b.toNat <<< k := by
  have hb : b.toNat ≤ 1 := Bool.toNat_le b
  have hlt : b.toNat <<< k < 256 := by
    rw [Nat.shiftLeft_eq]
    have hpow : 2 ^ k ≤ 2 ^ 7 := Nat.pow_le_pow_right (by decide) (by omega)
    have : b.toNat * 2 ^ k ≤ 1 * 2 ^ k := Nat.mul_le_mul_right _ hb
    omega
  rw [Nat.toUInt8_eq, UInt8.toNat_ofNat', Nat.mod_eq_of_lt hlt]

/-- After `m` rounds bit `j` of byte `i` is bit `8 * i + j` if that is below `m`. -/
theorem testBit_packLoop (bits : List Bool) {m : Nat} (hm : m ≤ bits.length) (i : Nat) {j : Nat} (hj : j < 8) :
    ((packLoop bits m).getD i 0).toNat.testBit j = (decide (8 * i + j < m) && bits.getD (8 * i + j) false) := by
  induction m with
  | zero =>
    rw [packLoop, List.range_zero, List.foldl_nil]
    by_cases hi : i < (bits.length + 7) / 8
    · rw [List.getD_replicate _ hi]
      simp
    · rw [List.getD_eq_default _ _ (by simpa using hi)]
      simp
  | succ m ih =>
    have hprev := ih (by omega)
    have hbyte : m / 8 < (bits.length + 7) / 8 := by omega
    rw [packLoop, List.range_succ, List.foldl_append, List.foldl_cons, List.foldl_nil, ← packLoop,
      getD_modify, length_packLoop]
    by_cases hi : m / 8 = i
    · subst hi
      rw [if_pos ⟨rfl, hbyte⟩, UInt8.toNat_or, Nat.testBit_or, hprev, toNat_bitByte _ (Nat.mod_lt _ (by decide)),
        testBit_toNat_shiftLeft]
      by_cases hjm : j = m % 8
      · have hpos : 8 * (m / 8) + j = m := by omega
        rw [hpos]
        simp [hjm]
      · have hne : 8 * (m / 8) + j ≠ m := by omega
        have hlt : 8 * (m / 8) + j < m + 1 ↔ 8 * (m / 8) + j < m := by omega
        simp [hjm, hlt]
    · rw [if_neg (fun h => hi h.1), hprev]
      have hlt : 8 * i + j < m + 1 ↔ 8 * i + j < m := by omega
      simp [hlt]

theorem and_one_shiftLeft_bne_zero (x k : Nat) : (x &&& 1 <<< k != 0) = x.testBit k := by
  rw [Nat.one_shiftLeft, Nat.and_two_pow]
  cases x.testBit k <;> simp

/-- Packing and unpacking give back the bits, padded with `false` to whole bytes. -/
theorem unpackBits_packBits (bits : List Bool) :
    unpackBits (packBits bits) = bits ++ List.replicate ((bits.length + 7) / 8 * 8 - bits.length) false := by
  have hpack : packBits bits = packLoop bits bits.length := rfl
  have hcover : bits.length ≤ (bits.length + 7) / 8 * 8 := by omega
  apply List.ext_getElem
  · rw [unpackBits, List.length_map, List.length_range, hpack, length_packLoop, List.length_append,
      List.length_replicate]
    omega
  · intro p h₁ h₂
    simp only [unpackBits, List.getElem_map, List.getElem_range]
    rw [and_one_shiftLeft_bne_zero, hpack, testBit_packLoop bits le_rfl _ (Nat.mod_lt _ (by decide)), List.getElem_append]
    have hp : 8 * (p / 8) + p % 8 = p := by omega
    rw [hp]
    by_cases hlt : p < bits.length
    · simp [hlt]
    · simp [hlt]

theorem length_packBits (bits : List Bool) : (packBits bits).length = (bits.length + 7) / 8 :=
  length_packLoop bits bits.length

end packing

section roundTrip

/-- A tree whose vectors fit `MAX_SIZE` reads back with its bits padded to
whole bytes and `fBad` cleared. -/
theorem unserialize_serialize {t : CPartialMerkleTree Uint256} (hn : t.nTransactions < 2 ^ 32)
    (hHash : t.vHash.length ≤ maxSize) (hBytes : (t.vBits.length + 7) / 8 ≤ maxSize) (rest : List UInt8) :
    CPartialMerkleTree.unserialize (t.serialize ++ rest) =
      some ({ t with vBits := unpackBits (packBits t.vBits), fBad := false }, rest) := by
  have hmod : t.nTransactions % 256 ^ 4 = t.nTransactions := Nat.mod_eq_of_lt (by omega)
  have hlen : (packBits t.vBits).length ≤ maxSize := by
    rw [length_packBits]
    exact hBytes
  simp only [CPartialMerkleTree.unserialize, CPartialMerkleTree.serialize, List.append_assoc, bind_apply,
    serReaddata32, serWritedata32, serReaddata_serWritedata, Option.bind_some, hmod,
    unserializeStdVector_serializeStdVector Uint256.serialize (fun a _ => Uint256.unserialize_serialize a) hHash,
    unserializeByteVector_serializeByteVector hlen, pure_apply]

/-- A tree with more than `MAX_SIZE` hashes does not read back. -/
theorem unserialize_serialize_of_lt {t : CPartialMerkleTree Uint256} (hHash : maxSize < t.vHash.length)
    (hHash64 : t.vHash.length < 2 ^ 64) (rest : List UInt8) :
    CPartialMerkleTree.unserialize (t.serialize ++ rest) = none := by
  simp only [CPartialMerkleTree.unserialize, CPartialMerkleTree.serialize, List.append_assoc, bind_apply,
    serReaddata32, serWritedata32, serReaddata_serWritedata, Option.bind_some,
    unserializeStdVector_serializeStdVector_of_lt Uint256.serialize Uint256.unserialize hHash hHash64,
    Option.bind_none]

end roundTrip

/-- A partial merkle tree over at most `MAX_SIZE` txids whose sibling nodes
hash apart (as they do for distinct txids under a hash injective on pairs),
built with a match vector at least as long as the txids, serialized and read
back, makes `ExtractMatches` return the merkle root, the matched txids in
order, and their positions after whatever `vnIndex` held. -/
theorem partialMerkleTree_roundTrip (hash : Uint256 → Uint256 → Uint256) {V : List Uint256} (M : List Bool)
    (hV0 : 0 < V.length) (hV : V.length ≤ maxSize) (hM : V.length ≤ M.length)
    (hsep : ((∀ a b c d, hash a b = hash c d → a = c ∧ b = d) ∧ V.Nodup) ∨
      ∀ k j, chunk k (2 * j + 1) V ≠ [] → node hash k (2 * j) V ≠ node hash k (2 * j + 1) V)
    (vnIndex : List Nat) (rest : List UInt8) :
    ∃ t t', CPartialMerkleTree.create hash V M = some t ∧
      CPartialMerkleTree.unserialize (t.serialize ++ rest) = some (t', rest) ∧
      (extractMatches hash t' vnIndex).1 = (computeMerkleRoot hash V).1 ∧
      (extractMatches hash t' vnIndex).2.vMatch = (matchedIndices V.length M).map (V.getD · default) ∧
      (extractMatches hash t' vnIndex).2.vnIndex = vnIndex ++ matchedIndices V.length M := by
  have hsib : ∀ k j, chunk k (2 * j + 1) V ≠ [] → node hash k (2 * j) V ≠ node hash k (2 * j + 1) V := by
    rcases hsep with ⟨hinj, hnodup⟩ | hsib
    · exact fun k j hne => node_ne_sibling hinj hnodup hne
    · exact hsib
  have hmax : maxSize = 2 ^ 28 := rfl
  have hn : V.length ≤ 2 ^ 31 := by omega
  have hclog : Nat.clog 2 V.length ≤ 28 := Nat.clog_le_of_le_pow (by omega)
  have hpow : 2 ^ (Nat.clog 2 V.length + 1) ≤ 2 ^ 29 := Nat.pow_le_pow_right (by decide) (by omega)
  have hHash : (CPartialMerkleTree.createD hash V M).vHash.length ≤ V.length := length_create_vHash_le hash hV0 hn
  have hBits : (CPartialMerkleTree.createD hash V M).vBits.length < 2 ^ (Nat.clog 2 V.length + 1) :=
    length_create_vBits_lt hash hn
  have hcount : (CPartialMerkleTree.createD hash V M).nTransactions = V.length := by
    rw [create_eq hash (by omega)]
  refine ⟨_, _, create_eq_some hash hV0 hn hM, unserialize_serialize (by omega) (by omega) (by omega) rest, ?_⟩
  have hpad : ((CPartialMerkleTree.createD hash V M).vBits.length + 7) / 8 =
      ((CPartialMerkleTree.createD hash V M).vBits.length +
        (List.replicate (((CPartialMerkleTree.createD hash V M).vBits.length + 7) / 8 * 8 -
          (CPartialMerkleTree.createD hash V M).vBits.length) false).length + 7) / 8 := by
    rw [List.length_replicate]
    omega
  have hx := extractMatches_create hash hV0 hn hsib _ hpad vnIndex
  rw [unpackBits_packBits, hx]
  exact ⟨rfl, rfl, rfl⟩

theorem partialMerkleTree_roundTrip_three :
    let hash := fun a b : Uint256 => if a = b then a else b
    let V : List Uint256 := [⟨List.replicate 32 0, rfl⟩, ⟨List.replicate 32 1, rfl⟩, ⟨List.replicate 32 2, rfl⟩]
    ∃ t t', CPartialMerkleTree.create hash V [false, true, true] = some t ∧
      CPartialMerkleTree.unserialize (t.serialize ++ []) = some (t', []) ∧
      (extractMatches hash t' []).1 = (computeMerkleRoot hash V).1 ∧
      (extractMatches hash t' []).2.vMatch = (matchedIndices V.length [false, true, true]).map (V.getD · default) ∧
      (extractMatches hash t' []).2.vnIndex = [] ++ matchedIndices V.length [false, true, true] := by
  intro hash V
  have hsib : ∀ k j, chunk k (2 * j + 1) V ≠ [] → node hash k (2 * j) V ≠ node hash k (2 * j + 1) V := by
    intro k j hne
    have hlen : V.length = 3 := rfl
    rw [Ne, chunk_eq_nil_iff, hlen] at hne
    have hk : k < 2 := by
      by_contra hk
      have hpow : 2 ^ 2 ≤ 2 ^ k := Nat.pow_le_pow_right (by decide) (by omega)
      have hmul : 2 ^ k ≤ (2 * j + 1) * 2 ^ k := Nat.le_mul_of_pos_left _ (by omega)
      omega
    interval_cases k
    · obtain rfl : j = 0 := by omega
      decide
    · obtain rfl : j = 0 := by omega
      decide
  exact partialMerkleTree_roundTrip hash [false, true, true] (by decide) (by decide) (by decide) (.inr hsib) [] []

/-- With more than `MAX_SIZE` distinct txids, all matched, the tree stores every
txid and does not read back. -/
theorem partialMerkleTree_oversized :
    ∃ V : List Uint256, V.Nodup ∧ V.length = maxSize + 1 ∧ V.length < 2 ^ 31 ∧
      ∃ t, CPartialMerkleTree.create (fun a _ => a) V (List.replicate V.length true) = some t ∧
        ∀ rest, CPartialMerkleTree.unserialize (t.serialize ++ rest) = none := by
  have hmax : maxSize = 2 ^ 28 := rfl
  have hlen : ((List.range (maxSize + 1)).map Uint256.ofNat).length = maxSize + 1 := by simp
  refine ⟨(List.range (maxSize + 1)).map Uint256.ofNat, ?_, hlen, by omega, _,
    create_eq_some _ (by omega) (by omega) (by simp), ?_⟩
  · refine List.Nodup.map_on ?_ List.nodup_range
    intro i hi j hj hij
    rw [List.mem_range] at hi hj
    exact Uint256.ofNat_injective (by omega) (by omega) hij
  · intro rest
    have hall : ∀ i < ((List.range (maxSize + 1)).map Uint256.ofNat).length,
        (List.replicate ((List.range (maxSize + 1)).map Uint256.ofNat).length true).getD i false = true :=
      fun i hi => List.getD_replicate _ hi
    apply unserialize_serialize_of_lt
    · rw [create_vHash_of_all_match _ (by omega) (by omega) hall, hlen]
      omega
    · rw [create_vHash_of_all_match _ (by omega) (by omega) hall, hlen]
      omega

end Membercoin
