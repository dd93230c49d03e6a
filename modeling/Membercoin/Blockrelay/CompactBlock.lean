import Membercoin.Serialize.Stream

/-!
# Compact blocks (blockrelay/compactblock.cpp)

A compact block carries a block header, a nonce, the six-byte short IDs of
the transactions the receiver is expected to have, and the others whole,
each as a `PrefilledTransaction` whose `index` is the number of short IDs
since the previous prefilled transaction. The coinbase is always prefilled,
with index 0; a transaction is prefilled when the sender has a filter of the
peer's inventory and the filter does not contain its hash.

The short IDs are SipHash of the transaction hash under two keys taken from
SHA256 of the serialized header and nonce (`fillShortTxIDSelector`), cut to 48
bits. SHA256, SipHash and the nonce are parameters; so is everything the code
uses of a transaction (`TxOps`): its hash, `IsNull`, and its serialization
through `TransactionCompressor`. The filter is its membership test.

`validateCompactBlock` re-accumulates the positions from the indexes, and
`process` rebuilds the short ID of every transaction in block order,
interleaving the prefilled transactions with the short IDs, and collects the
prefilled transactions by short ID in `mapMissingTx`. The `std::map` is its
lookup, a function from short IDs.
-/

namespace Membercoin

open ByteCodec

/-- `CBlockHeader`, with `nVersion` as the bits of its `int32_t`. -/
structure CBlockHeader where
  nVersion : UInt32
  hashPrevBlock : Uint256
  hashMerkleRoot : Uint256
  nTime : UInt32
  nBits : UInt32
  nNonce : UInt32

namespace CBlockHeader

/-- `SerializationOp` of `CBlockHeader`, writing. -/
def serialize (h : CBlockHeader) : List UInt8 :=
  serWritedata32 h.nVersion.toNat ++ h.hashPrevBlock.serialize ++ h.hashMerkleRoot.serialize ++
    serWritedata32 h.nTime.toNat ++ serWritedata32 h.nBits.toNat ++ serWritedata32 h.nNonce.toNat

/-- `SerializationOp` of `CBlockHeader`, reading. -/
def unserialize : Reader CBlockHeader := do
  let nVersion ← serReaddata32
  let hashPrevBlock ← Uint256.unserialize
  let hashMerkleRoot ← Uint256.unserialize
  let nTime ← serReaddata32
  let nBits ← serReaddata32
  let nNonce ← serReaddata32
  pure ⟨nVersion.toUInt32, hashPrevBlock, hashMerkleRoot, nTime.toUInt32, nBits.toUInt32, nNonce.toUInt32⟩

/-- `IsNull`. -/
def isNull (h : CBlockHeader) : Bool := h.nBits == 0

end CBlockHeader

/-- What the compact block code uses of a transaction: `GetHash`, `IsNull`,
and its serialization through `TransactionCompressor`. -/
structure TxOps (Tx : Type) where
  getHash : Tx → Uint256
  isNull : Tx → Bool
  serialize : Tx → List UInt8
  unserialize : Reader Tx

/-- The transaction serialization reads back what it wrote. -/
def TxOps.RoundTrips {Tx : Type} (ops : TxOps Tx) : Prop :=
  ∀ tx rest, ops.unserialize (ops.serialize tx ++ rest) = some (tx, rest)

/-- `CBlock`: its header and transactions. -/
structure CBlock (Tx : Type) where
  header : CBlockHeader
  vtx : List Tx

/-- `uint256::GetUint64(pos)`: bytes `8 pos` to `8 pos + 7`, little-endian. -/
def Uint256.getUint64 (a : Uint256) (pos : Nat) : Nat := leValue ((a.data.drop (8 * pos)).take 8)

/-- `GetShortID`: SipHash of the transaction hash under the two keys, cut to
six bytes. -/
def getShortID (sipHash : Nat → Nat → Uint256 → Nat) (shorttxidk0 shorttxidk1 : Nat) (txhash : Uint256) : Nat :=
  sipHash shorttxidk0 shorttxidk1 txhash &&& 0xffffffffffff

/-- `FillShortTxIDSelector`: the two keys, from SHA256 of the header and the
nonce. -/
def fillShortTxIDSelector (sha256 : List UInt8 → Uint256) (header : CBlockHeader) (nonce : Nat) : Nat × Nat :=
  let shorttxidhash := sha256 (header.serialize ++ serWritedata64 nonce)
  (shorttxidhash.getUint64 0, shorttxidhash.getUint64 1)

/-- `PrefilledTransaction`: a transaction sent whole, and the number of short
IDs between it and the previous one. -/
structure PrefilledTransaction (Tx : Type) where
  index : Nat
  tx : Tx

namespace PrefilledTransaction

variable {Tx : Type} (ops : TxOps Tx)

/-- `SerializationOp`, writing. -/
def serialize (p : PrefilledTransaction Tx) : List UInt8 := writeCompactSize p.index ++ ops.serialize p.tx

/-- `SerializationOp`, reading: the index as a `COMPACTSIZE`, which reads at
most `MAX_SIZE`, then the check that it fits 32 bits. -/
def unserialize : Reader (PrefilledTransaction Tx) := do
  let idx ← readCompactSize
  if idx > 0xffffffff then failure
  let tx ← ops.unserialize
  pure ⟨idx, tx⟩

end PrefilledTransaction

/-- The fields of `CompactBlock` that go on the wire; the keys are computed
from the header and the nonce. -/
structure CompactBlock (Tx : Type) where
  header : CBlockHeader
  nonce : Nat
  shorttxids : List Nat
  prefilledtxn : List (PrefilledTransaction Tx)

namespace CompactBlock

variable {Tx : Type} (sha256 : List UInt8 → Uint256) (sipHash : Nat → Nat → Uint256 → Nat) (ops : TxOps Tx)

/-- `GetShortID` of the compact block, under its own keys. -/
def shortID (cb : CompactBlock Tx) (txhash : Uint256) : Nat :=
  let keys := fillShortTxIDSelector sha256 cb.header cb.nonce
  getShortID sipHash keys.1 keys.2 txhash

/-- A short ID on the wire: the low 32 bits, then the next 16. -/
def serializeShortID (s : Nat) : List UInt8 := serWritedata32 (s &&& 0xffffffff) ++ serWritedata16 ((s >>> 32) &&& 0xffff)

/-- A short ID read back: `(uint64_t(msb) << 32) | uint64_t(lsb)`. -/
def unserializeShortID : Reader Nat := do
  let lsb ← serReaddata32
  let msb ← serReaddata16
  pure ((msb <<< 32) ||| lsb)

/-- `SerializationOp` of `CompactBlock`, writing. -/
def serialize (cb : CompactBlock Tx) : List UInt8 :=
  cb.header.serialize ++ serWritedata64 cb.nonce ++ writeCompactSize cb.shorttxids.length ++
    (cb.shorttxids.map serializeShortID).flatten ++ serializeStdVector (PrefilledTransaction.serialize ops) cb.prefilledtxn

/-- `SerializationOp` of `CompactBlock`, reading: the short IDs are read in
batches of 1000 until there are as many as the size says, so all of them or
the read fails. -/
def unserialize : Reader (CompactBlock Tx) := do
  let header ← CBlockHeader.unserialize
  let nonce ← serReaddata64
  let shorttxidsSize ← readCompactSize
  let shorttxids ← readMany unserializeShortID shorttxidsSize
  let prefilledtxn ← unserializeStdVector (PrefilledTransaction.unserialize ops)
  pure ⟨header, nonce, shorttxids, prefilledtxn⟩

/-! ## The constructor -/

/-- The test of the constructor's loop: `inventoryKnown &&
!inventoryKnown->contains(tx.GetHash())`. -/
def sendsWhole (inventoryKnown : Option (Uint256 → Bool)) (hash : Uint256) : Bool :=
  match inventoryKnown with
  | some contains => !contains hash
  | none => false

/-- The state of the constructor's loop. -/
structure MakeState (Tx : Type) where
  prevIndex : Nat
  shorttxids : List Nat
  prefilledtxn : List (PrefilledTransaction Tx)

/-- One round of the constructor's loop, at transaction `i`. -/
def makeStep (shortID : Uint256 → Nat) (inventoryKnown : Option (Uint256 → Bool)) (st : MakeState Tx)
    (txi : Tx × Nat) : MakeState Tx :=
  if sendsWhole inventoryKnown (ops.getHash txi.1) then
    ⟨txi.2, st.shorttxids, st.prefilledtxn ++ [⟨(txi.2 - (st.prevIndex + 1)) % 2 ^ 32, txi.1⟩]⟩
  else
    { st with shorttxids := st.shorttxids ++ [shortID (ops.getHash txi.1)] }

/-- `CompactBlock(block, inventoryKnown)` with the nonce `GetRand` gave; a
block without transactions throws. -/
def make (block : CBlock Tx) (inventoryKnown : Option (Uint256 → Bool)) (nonce : Nat) : Option (CompactBlock Tx) :=
  match block.vtx with
  | [] => none
  | coinbase :: rest =>
    let keys := fillShortTxIDSelector sha256 block.header nonce
    let st := (rest.zipIdx 1).foldl (makeStep ops (getShortID sipHash keys.1 keys.2) inventoryKnown)
      ⟨0, [], [⟨0, coinbase⟩]⟩
    some ⟨block.header, nonce, st.shorttxids, st.prefilledtxn⟩

end CompactBlock

/-! ## Validation -/

section validate

variable {Tx : Type} (ops : TxOps Tx)

/-- The loop of `validateCompactBlock` over the prefilled transactions, from
the position `lastprefilledindex` of the previous one. -/
def validatePrefilled (nShortIDs : Nat) : Int → List (PrefilledTransaction Tx × Nat) → Except String Unit
  | _, [] => pure ()
  | lastprefilledindex, (p, i) :: rest => do
    if ops.isNull p.tx then throw "null tx in compact block"
    let lastprefilledindex := lastprefilledindex + p.index + 1
    if lastprefilledindex > 0xffffffff then throw "tx index overflows"
    if lastprefilledindex.toNat > nShortIDs + i then throw "invalid index for tx"
    validatePrefilled nShortIDs lastprefilledindex rest

/-- `validateCompactBlock`. -/
def validateCompactBlock (cb : CompactBlock Tx) : Except String Unit :=
  if cb.header.isNull || (cb.shorttxids.isEmpty && cb.prefilledtxn.isEmpty) then
    throw "empty data in compact block"
  else validatePrefilled ops cb.shorttxids.length (-1) cb.prefilledtxn.zipIdx

end validate

/-! ## Rebuilding the order -/

namespace CompactBlock

variable {Tx : Type}

/-- The inner loop of `process`: up to `index` short IDs moved from the
iterator to `vTxHashes`, stopping when the iterator runs out. -/
def addShortIDs : Nat → List Nat → List Nat → List Nat × List Nat
  | 0, iterShortID, vTxHashes => (iterShortID, vTxHashes)
  | _ + 1, [], vTxHashes => ([], vTxHashes)
  | n + 1, s :: iterShortID, vTxHashes => addShortIDs n iterShortID (vTxHashes ++ [s])

/-- The state of the loop of `process`: the short IDs not yet used, the
hashes so far and `mapMissingTx`. -/
structure ProcessState (Tx : Type) where
  iterShortID : List Nat
  vTxHashes : List Nat
  mapMissingTx : Nat → Option Tx

/-- `mapMissingTx[shorthash] = tx`. -/
def insertMissing (m : Nat → Option Tx) (shorthash : Nat) (tx : Tx) : Nat → Option Tx :=
  fun k => if k = shorthash then some tx else m k

/-- One prefilled transaction of the loop of `process`: with index 0 it comes
next; otherwise `index` short IDs come first, as many as are left. -/
def processPrefilled (shortID : Tx → Nat) (st : ProcessState Tx) (prefilled : PrefilledTransaction Tx) :
    ProcessState Tx :=
  if prefilled.index = 0 then
    ⟨st.iterShortID, st.vTxHashes ++ [shortID prefilled.tx], insertMissing st.mapMissingTx (shortID prefilled.tx) prefilled.tx⟩
  else
    let r := addShortIDs prefilled.index st.iterShortID st.vTxHashes
    ⟨r.1, r.2 ++ [shortID prefilled.tx], insertMissing st.mapMissingTx (shortID prefilled.tx) prefilled.tx⟩

variable (sha256 : List UInt8 → Uint256) (sipHash : Nat → Nat → Uint256 → Nat) (ops : TxOps Tx)

/-- The part of `CompactBlock::process` that rebuilds `vTxHashes` and
`mapMissingTx`: the prefilled transactions interleaved with the short IDs,
then the short IDs left. -/
def process (cb : CompactBlock Tx) : List Nat × (Nat → Option Tx) :=
  if cb.prefilledtxn.isEmpty then (cb.shorttxids, fun _ => none)
  else
    let st := cb.prefilledtxn.foldl (processPrefilled fun tx => cb.shortID sha256 sipHash (ops.getHash tx))
      ⟨cb.shorttxids, [], fun _ => none⟩
    (st.vTxHashes ++ st.iterShortID, st.mapMissingTx)

/-- The position in the block of the `k`-th prefilled transaction, read off
its differential index as `process` reads it: the first `k + 1` indexes plus
one each, summed, less one. -/
def prefilledPosition (cb : CompactBlock Tx) (k : Nat) : Nat :=
  ((cb.prefilledtxn.take (k + 1)).map (·.index + 1)).sum - 1

end CompactBlock

end Membercoin
