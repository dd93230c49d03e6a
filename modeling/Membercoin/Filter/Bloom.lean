import Membercoin.Filter.RollingFastFilter
import Membercoin.Filter.RollingBloom
import Membercoin.Script.GetOp
import Membercoin.Serialize.Compressor

/-!
# The Bloom filter (bloom.cpp)

`CBloomFilter` keeps its bits in `vData`, with two flags that cut the tests
short: `isFull` answers every `contains` with true and makes `insert` do
nothing, and `isEmpty` answers false until the first insert. Hash function
`i` is MurmurHash3 seeded as in `RollingBloomHash`, modulo the number of
bits. `MatchAndInsertOutputs` tests the transaction's hash, then the pushes of
each output's `scriptPubKey` up to the first one contained; under
`BLOOM_UPDATE_ALL`, or `BLOOM_UPDATE_P2PUBKEY_ONLY` for a pay-to-pubkey,
multisig or CLTV script, it then inserts the outpoint of that output.

MurmurHash3 and `Solver` are parameters, as are the `double` computations of
the constructors. The remainder by zero bits is `none`. Every filter the code
builds avoids it (`Sized`): one with no bytes is full. The constructors,
`clear`, `reset` and `UpdateEmptyFull`, so also a filter read by
`SerializationOp`, are `Sized` (`Start.sized`).

A key is contained when the filter is full, or when it is not empty and
every bit the key names is set (`contains_spec`). An insert sets the bits
of its key and no other (`insert_spec`), and so keeps every key contained.
`MatchAndInsertOutputs` is a list of such inserts, of outpoints of the
transaction (`matchAndInsertOutputs_spec`). So from a `Sized` filter every
sequence of calls is defined, it inserts every key passed to `insert`, and
every key it inserts is contained when it ends (`runCalls_spec`).
-/

namespace Membercoin

open ByteCodec
open CVariableFastFilter (setBit bitUnset bitSet setBit_eq bitUnset_eq)

/-- `MAX_HASH_FUNCS`. -/
def maxHashFuncs : Nat := 50

/-- `SMALLEST_MAX_BLOOM_FILTER_SIZE`, in bytes. -/
def smallestMaxBloomFilterSize : Nat := 36000

/-- `txnouttype`: the script templates `Solver` recognises. -/
inductive TxnOutType
  | nonstandard
  | pubkey
  | pubkeyhash
  | scripthash
  | multisig
  | cltv
  | labelpublic
  | nullData
  deriving Repr, DecidableEq

/-- The fields of `CBloomFilter`. -/
structure CBloomFilter where
  vData : List UInt8
  isFull : Bool
  isEmpty : Bool
  nHashFuncs : Nat
  nTweak : Nat
  nFlags : UInt8
  deriving Repr, DecidableEq

namespace CBloomFilter

/-- `BLOOM_UPDATE_ALL`. -/
def bloomUpdateAll : UInt8 := 1

/-- `BLOOM_UPDATE_P2PUBKEY_ONLY`. -/
def bloomUpdateP2PubkeyOnly : UInt8 := 2

/-- `BLOOM_UPDATE_MASK`. -/
def bloomUpdateMask : UInt8 := 3

/-- The default constructor: no bytes, full and empty. -/
def init : CBloomFilter := ⟨[], true, true, 0, 0, 0⟩

/-- `setup` after its `double` computations: `nDesiredSize` is
`(unsigned int)(-1 / LN2SQUARED * nElements * log(nFPRate) / 8)` and
`hashFuncsEstimate` is `(unsigned int)(vData.size() * 8 / nElements * LN2)`. -/
def setup (nDesiredSize hashFuncsEstimate nTweakIn : Nat) (nFlagsIn : UInt8) (fSizeConstrained : Bool)
    (nMaxFilterSize : Nat) : CBloomFilter :=
  let size := if fSizeConstrained then min nDesiredSize nMaxFilterSize else nDesiredSize
  let nHashFuncs := if hashFuncsEstimate = 0 then 1 else hashFuncsEstimate
  { vData := List.replicate size 0
    isFull := size == 0
    isEmpty := true
    nHashFuncs := if fSizeConstrained then min nHashFuncs maxHashFuncs else nHashFuncs
    nTweak := nTweakIn
    nFlags := nFlagsIn }

/-- `setupGuaranteeFPR` after its `double` computations: `nDesiredSize` is
`(unsigned int)(ceil(-1 / LN2SQUARED * nElements * log(nFPRate) / 8))` and
`hashFuncsEstimate` is `int(vData.size() * 8 / nElements * LN2)`. -/
def setupGuaranteeFPR (nDesiredSize : Nat) (hashFuncsEstimate : Int) (nTweakIn : Nat) (nFlagsIn : UInt8) :
    CBloomFilter :=
  { vData := List.replicate nDesiredSize 0
    isFull := nDesiredSize == 0
    isEmpty := true
    nHashFuncs := (max 1 hashFuncsEstimate).toNat
    nTweak := nTweakIn
    nFlags := nFlagsIn }

/-- `clear`: every bit cleared. -/
def clear (f : CBloomFilter) : CBloomFilter :=
  { f with vData := List.replicate f.vData.length 0, isFull := f.vData.length == 0, isEmpty := true }

/-- `reset`: `clear` with a new tweak. -/
def reset (f : CBloomFilter) (nNewTweak : Nat) : CBloomFilter := { f.clear with nTweak := nNewTweak }

/-- `UpdateEmptyFull`: full when every byte is `0xff`, empty when every byte
is zero. -/
def updateEmptyFull (f : CBloomFilter) : CBloomFilter :=
  { f with isFull := f.vData.all (· == 0xff), isEmpty := f.vData.all (· == 0) }

/-- `SerializationOp` writing. -/
def serialize (f : CBloomFilter) : List UInt8 :=
  serializeByteVector f.vData ++ serWritedata32 f.nHashFuncs ++ serWritedata32 f.nTweak ++
    serWritedata8 f.nFlags.toNat

/-- `SerializationOp` reading into a default filter, then `UpdateEmptyFull`. -/
def unserialize : Reader CBloomFilter := do
  let vData ← unserializeByteVector
  let nHashFuncs ← serReaddata32
  let nTweak ← serReaddata32
  let nFlags ← serReaddata8
  pure (updateEmptyFull { init with vData, nHashFuncs, nTweak, nFlags := nFlags.toUInt8 })

/-- `ToVector(COutPoint(hash, n))`: the hash, then `n` as a `uint32_t`. -/
def outPointVector (hash : Uint256) (n : Nat) : List UInt8 := hash.serialize ++ serWritedata32 n

section model

variable (murmurHash3 : Nat → List UInt8 → Nat)

/-- `Hash`: MurmurHash3 seeded as in `RollingBloomHash`, modulo the number of
bits, kept in an `unsigned int`; the remainder by zero bits is undefined. -/
def hash (f : CBloomFilter) (nHashNum : Nat) (vDataToHash : List UInt8) : Option UInt32 :=
  if f.vData.length = 0 then none
  else
    some (RollingBloomFilter.rollingBloomHash murmurHash3 nHashNum f.nTweak vDataToHash % (f.vData.length * 8)).toUInt32

/-- `insert`: nothing when full, else the bits of the key set. -/
def insert (f : CBloomFilter) (vKey : List UInt8) : Option CBloomFilter :=
  if f.isFull then some f
  else do
    let vData ← (List.range f.nHashFuncs).foldlM (fun vData i => do
      let nIndex ← f.hash murmurHash3 i vKey
      setBit vData nIndex) f.vData
    pure { f with vData, isEmpty := false }

/-- `contains`: true when full, false when empty, else false at the first
clear bit. -/
def contains (f : CBloomFilter) (vKey : List UInt8) : Option Bool :=
  if f.isFull then some true
  else if f.isEmpty then some false
  else (List.range f.nHashFuncs).allM fun i => do
    let nIndex ← f.hash murmurHash3 i vKey
    let unset ← bitUnset f.vData nIndex
    pure !unset

/-- The scan of a `scriptPubKey` in `MatchAndInsertOutputs`: whether a push
before the first failing `GetOp` has data that the filter contains. -/
def scanScript (f : CBloomFilter) (pc : List UInt8) : Option Bool :=
  if pc = [] then some false
  else
    match h : getOp2 pc with
    | none => some false
    | some (_, data, pc') => do
      let found ← if data.length ≠ 0 then f.contains murmurHash3 data else pure false
      if found then pure true else scanScript f pc'
termination_by pc.length
decreasing_by exact getOp2_length_lt h

/-- One output of `MatchAndInsertOutputs`: whether a push of its script is
contained, and the filter after the insert of its outpoint that `nFlags`
asks for. -/
def matchOutput (solver : List UInt8 → Option TxnOutType) (hash : Uint256) (f : CBloomFilter) (i : Nat)
    (txout : CTxOut) : Option (Bool × CBloomFilter) := do
  let found ← f.scanScript murmurHash3 txout.scriptPubKey
  if !found then pure (false, f)
  else if f.nFlags &&& bloomUpdateMask = bloomUpdateAll then
    let g ← f.insert murmurHash3 (outPointVector hash i)
    pure (true, g)
  else if f.nFlags &&& bloomUpdateMask = bloomUpdateP2PubkeyOnly ∧
      (solver txout.scriptPubKey = some .pubkey ∨ solver txout.scriptPubKey = some .multisig ∨
        solver txout.scriptPubKey = some .cltv) then
    let g ← f.insert murmurHash3 (outPointVector hash i)
    pure (true, g)
  else pure (true, f)

/-- `MatchAndInsertOutputs` of a transaction with hash `hash` and outputs
`vout`. -/
def matchAndInsertOutputs (solver : List UInt8 → Option TxnOutType) (hash : Uint256) (vout : List CTxOut)
    (f : CBloomFilter) : Option (Bool × CBloomFilter) :=
  if f.isFull then some (true, f)
  else if f.isEmpty then some (false, f)
  else do
    let fFound ← f.contains murmurHash3 hash.data
    vout.zipIdx.foldlM (fun (r : Bool × CBloomFilter) (txout, i) => do
      let m ← matchOutput murmurHash3 solver hash r.2 i txout
      pure (r.1 || m.1, m.2)) (fFound, f)

/-- `insert` of each key in turn. -/
def insertAll (f : CBloomFilter) (keys : List (List UInt8)) : Option CBloomFilter :=
  keys.foldlM (insert murmurHash3) f

/-- A call a client makes between clears. -/
inductive Call
  | insert (vKey : List UInt8)
  | matchAndInsertOutputs (hash : Uint256) (vout : List CTxOut)

/-- The filter after a call. -/
def applyCall (solver : List UInt8 → Option TxnOutType) (f : CBloomFilter) : Call → Option CBloomFilter
  | .insert vKey => f.insert murmurHash3 vKey
  | .matchAndInsertOutputs hash vout => (f.matchAndInsertOutputs murmurHash3 solver hash vout).map Prod.snd

/-- The filter after each call in turn. -/
def runCalls (solver : List UInt8 → Option TxnOutType) (f : CBloomFilter) (calls : List Call) :
    Option CBloomFilter :=
  calls.foldlM (applyCall murmurHash3 solver) f

/-- The bits the first `k` hash functions name for `vKey`. -/
def hashBits (f : CBloomFilter) (vKey : List UInt8) (k : Nat) : List Nat :=
  (List.range k).filterMap fun i => (f.hash murmurHash3 i vKey).map UInt32.toNat

end model

/-- The keys a call passes to `insert` itself. -/
def Call.keys : Call → List (List UInt8)
  | .insert vKey => [vKey]
  | .matchAndInsertOutputs _ _ => []

/-- The outpoints a call may insert. -/
def Call.outPoints : Call → List (List UInt8)
  | .insert _ => []
  | .matchAndInsertOutputs hash vout => (List.range vout.length).map (outPointVector hash)

/-- The filters `Hash` is defined on: one with no bytes is full. -/
def Sized (f : CBloomFilter) : Prop := f.isFull = false → f.vData ≠ []

/-- The filters a client starts from: a constructor's, one read by
`SerializationOp`, one cleared or reset. -/
inductive Start : CBloomFilter → Prop
  | init : Start init
  | setup (nDesiredSize hashFuncsEstimate nTweakIn : Nat) (nFlagsIn : UInt8) (fSizeConstrained : Bool)
      (nMaxFilterSize : Nat) :
      Start (setup nDesiredSize hashFuncsEstimate nTweakIn nFlagsIn fSizeConstrained nMaxFilterSize)
  | setupGuaranteeFPR (nDesiredSize : Nat) (hashFuncsEstimate : Int) (nTweakIn : Nat) (nFlagsIn : UInt8) :
      Start (setupGuaranteeFPR nDesiredSize hashFuncsEstimate nTweakIn nFlagsIn)
  | unserialize {s rest : List UInt8} {f : CBloomFilter} : unserialize s = some (f, rest) → Start f
  | clear (f : CBloomFilter) : Start f.clear
  | reset (f : CBloomFilter) (nNewTweak : Nat) : Start (f.reset nNewTweak)

/-! ## The filters a client starts from -/

section start

theorem sized_of_isFull_eq {f : CBloomFilter} (h : f.isFull = (f.vData.length == 0)) : Sized f := by
  intro hfull hnil
  rw [hnil, hfull] at h
  cases h

theorem updateEmptyFull_sized (f : CBloomFilter) : Sized (updateEmptyFull f) := by
  intro hfull hnil
  simp only [updateEmptyFull] at hfull hnil
  rw [hnil, List.all_nil] at hfull
  cases hfull

/-- A filter read by `SerializationOp` went through `UpdateEmptyFull`. -/
theorem unserialize_eq_some {s rest : List UInt8} {f : CBloomFilter} (h : unserialize s = some (f, rest)) :
    ∃ g, f = updateEmptyFull g := by
  simp only [unserialize, bind_apply, pure_apply, Option.bind_eq_some_iff] at h
  obtain ⟨_, -, _, -, _, -, _, -, h⟩ := h
  exact ⟨_, (Prod.mk.inj (Option.some.inj h)).1.symm⟩

theorem Start.sized {f : CBloomFilter} : Start f → Sized f
  | .init => fun h => absurd h (by decide)
  | .setup .. => sized_of_isFull_eq (by simp [CBloomFilter.setup])
  | .setupGuaranteeFPR .. => sized_of_isFull_eq (by simp [CBloomFilter.setupGuaranteeFPR])
  | .unserialize h => by
    obtain ⟨g, rfl⟩ := unserialize_eq_some h
    exact updateEmptyFull_sized g
  | .clear _ => sized_of_isFull_eq (by simp [CBloomFilter.clear])
  | .reset _ _ => sized_of_isFull_eq (by simp [CBloomFilter.reset, CBloomFilter.clear])

end start

/-! ## The hash functions -/

section hash

variable (murmurHash3 : Nat → List UInt8 → Nat)

/-- With some bytes, every hash function names a bit of `vData`. -/
theorem hash_spec {f : CBloomFilter} (hne : f.vData ≠ []) (i : Nat) (vKey : List UInt8) :
    ∃ nIndex, f.hash murmurHash3 i vKey = some nIndex ∧ nIndex.toNat / 8 < f.vData.length := by
  have hpos : 0 < f.vData.length := List.length_pos_iff.mpr hne
  refine ⟨_, if_neg (by omega), ?_⟩
  rw [Nat.toUInt32, UInt32.toNat_ofNat']
  have hmod := Nat.mod_lt (RollingBloomFilter.rollingBloomHash murmurHash3 i f.nTweak vKey)
    (show 0 < f.vData.length * 8 by omega)
  have hle := Nat.mod_le (RollingBloomFilter.rollingBloomHash murmurHash3 i f.nTweak vKey % (f.vData.length * 8))
    (2 ^ 32)
  omega

/-- The hash functions read only the number of bytes and the tweak. -/
theorem hash_congr {f g : CBloomFilter} (hlen : g.vData.length = f.vData.length) (htweak : g.nTweak = f.nTweak) :
    g.hash murmurHash3 = f.hash murmurHash3 := by
  funext i vKey
  simp only [hash, hlen, htweak]

theorem hashBits_congr {f g : CBloomFilter} (hlen : g.vData.length = f.vData.length)
    (htweak : g.nTweak = f.nTweak) : g.hashBits murmurHash3 = f.hashBits murmurHash3 := by
  funext vKey k
  simp only [hashBits, hash_congr murmurHash3 hlen htweak]

theorem hashBits_succ {f : CBloomFilter} {vKey : List UInt8} {k : Nat} {nIndex : UInt32}
    (h : f.hash murmurHash3 k vKey = some nIndex) :
    f.hashBits murmurHash3 vKey (k + 1) = f.hashBits murmurHash3 vKey k ++ [nIndex.toNat] := by
  simp only [hashBits, List.range_succ, List.filterMap_append, List.filterMap_cons, List.filterMap_nil, h,
    Option.map_some]

/-- The first `k` rounds of `insert` set exactly the bits they name. -/
theorem foldlM_setBit {f : CBloomFilter} (hne : f.vData ≠ []) (vKey : List UInt8) (k : Nat) :
    ∃ D, (List.range k).foldlM (fun vData i => do
        let nIndex ← f.hash murmurHash3 i vKey
        setBit vData nIndex) f.vData = some D ∧ D.length = f.vData.length ∧
      ∀ n, bitSet D n = (bitSet f.vData n || decide (n ∈ f.hashBits murmurHash3 vKey k)) := by
  refine OptionLoop.foldlM_range_exists _ (fun j D => D.length = f.vData.length ∧
      ∀ n, bitSet D n = (bitSet f.vData n || decide (n ∈ f.hashBits murmurHash3 vKey j)))
    ⟨rfl, fun n => by simp [hashBits]⟩ ?_
  rintro j D - ⟨hlen, hbits⟩
  obtain ⟨nIndex, hidx, hlt⟩ := hash_spec murmurHash3 hne j vKey
  obtain ⟨D', hset, hlen', hbits'⟩ := setBit_eq (show nIndex.toNat / 8 < D.length by rw [hlen]; exact hlt)
  refine ⟨D', by rw [hidx]; exact hset, hlen'.trans hlen, fun n => ?_⟩
  rw [hbits', hbits, hashBits_succ murmurHash3 hidx]
  simp [Bool.or_assoc]

end hash

/-! ## The operations -/

section operations

variable (murmurHash3 : Nat → List UInt8 → Nat) {f : CBloomFilter}

theorem insert_of_isFull (hfull : f.isFull = true) (vKey : List UInt8) : f.insert murmurHash3 vKey = some f := by
  rw [insert, if_pos hfull]

/-- A filter that is not full sets the bits of the key and no other, and is
no longer empty. -/
theorem insert_spec (hf : Sized f) (hfull : f.isFull = false) (vKey : List UInt8) :
    ∃ D, f.insert murmurHash3 vKey = some { f with vData := D, isEmpty := false } ∧ D.length = f.vData.length ∧
      ∀ n, bitSet D n = (bitSet f.vData n || decide (n ∈ f.hashBits murmurHash3 vKey f.nHashFuncs)) := by
  obtain ⟨D, hrun, hlen, hbits⟩ := foldlM_setBit murmurHash3 (hf hfull) vKey f.nHashFuncs
  refine ⟨D, ?_, hlen, hbits⟩
  rw [insert, if_neg (by rw [hfull]; decide), hrun]
  rfl

/-- `contains`: true when full, false when empty, and otherwise whether
every bit the key names is set. -/
theorem contains_spec (hf : Sized f) (vKey : List UInt8) :
    f.contains murmurHash3 vKey =
      some (f.isFull || (!f.isEmpty && (f.hashBits murmurHash3 vKey f.nHashFuncs).all (bitSet f.vData))) := by
  cases hfull : f.isFull with
  | true => rw [contains, if_pos hfull]; rfl
  | false =>
    cases hempty : f.isEmpty with
    | true => rw [contains, if_neg (by rw [hfull]; decide), if_pos hempty]; rfl
    | false =>
      rw [contains, if_neg (by rw [hfull]; decide), if_neg (by rw [hempty]; decide), hashBits, List.all_filterMap]
      apply OptionLoop.allM_eq_some_all
      intro i _
      obtain ⟨nIndex, hidx, hlt⟩ := hash_spec murmurHash3 (hf hfull) i vKey
      rw [hidx, Option.map_some]
      simp only [Option.bind_eq_bind, Option.bind_some, bitUnset_eq hlt, Bool.not_not]
      rfl

/-- An insert keeps the filter `Sized`, contains its key afterwards, and
keeps every key contained. -/
theorem insert_keeps (hf : Sized f) (vKey : List UInt8) :
    ∃ g, f.insert murmurHash3 vKey = some g ∧ Sized g ∧ g.contains murmurHash3 vKey = some true ∧
      ∀ x, f.contains murmurHash3 x = some true → g.contains murmurHash3 x = some true := by
  cases hfull : f.isFull with
  | true =>
    refine ⟨f, insert_of_isFull murmurHash3 hfull vKey, hf, by rw [contains, if_pos hfull], fun _ h => h⟩
  | false =>
    obtain ⟨D, hins, hlen, hbits⟩ := insert_spec murmurHash3 hf hfull vKey
    have hne : D ≠ [] := fun h => hf hfull (List.length_eq_zero_iff.mp (hlen ▸ h ▸ rfl))
    have hg : Sized { f with vData := D, isEmpty := false } := fun _ => hne
    have hhash : ({ f with vData := D, isEmpty := false } : CBloomFilter).hashBits murmurHash3 =
        f.hashBits murmurHash3 := hashBits_congr murmurHash3 hlen rfl
    refine ⟨_, hins, hg, ?_, fun x hx => ?_⟩
    · rw [contains_spec murmurHash3 hg, hhash]
      simp only [hfull, Bool.false_or, Bool.not_false, Bool.true_and]
      rw [List.all_eq_true.mpr fun n hn => by simp [hbits, hn]]
    · rw [contains_spec murmurHash3 hf, hfull, Bool.false_or, Option.some.injEq, Bool.and_eq_true,
        List.all_eq_true] at hx
      rw [contains_spec murmurHash3 hg, hhash]
      simp only [hfull, Bool.false_or, Bool.not_false, Bool.true_and]
      rw [List.all_eq_true.mpr fun n hn => by simp [hbits, hx.2 n hn]]

theorem insertAll_append (keys keys' : List (List UInt8)) :
    f.insertAll murmurHash3 (keys ++ keys') = (f.insertAll murmurHash3 keys).bind (insertAll murmurHash3 · keys') := by
  rw [insertAll, List.foldlM_append]
  rfl

/-- A run of inserts keeps the filter `Sized`, contains every key inserted,
and keeps every key contained. -/
theorem insertAll_keeps (keys : List (List UInt8)) :
    ∀ {f : CBloomFilter}, Sized f → ∃ g, f.insertAll murmurHash3 keys = some g ∧ Sized g ∧
      (∀ k ∈ keys, g.contains murmurHash3 k = some true) ∧
      ∀ x, f.contains murmurHash3 x = some true → g.contains murmurHash3 x = some true := by
  induction keys with
  | nil => exact fun hf => ⟨_, rfl, hf, fun _ h => absurd h List.not_mem_nil, fun _ h => h⟩
  | cons k keys ih =>
    intro f hf
    obtain ⟨f₁, hins, hf₁, hk, hmono₁⟩ := insert_keeps murmurHash3 hf k
    obtain ⟨g, hrun, hg, hkeys, hmono⟩ := ih hf₁
    refine ⟨g, by rw [insertAll, List.foldlM_cons, hins, Option.bind_eq_bind, Option.bind_some]; exact hrun, hg,
      fun k' hk' => ?_, fun x hx => hmono x (hmono₁ x hx)⟩
    rcases List.mem_cons.mp hk' with rfl | hk'
    · exact hmono k' hk
    · exact hkeys k' hk'

end operations

/-! ## `MatchAndInsertOutputs` -/

section matching

variable (murmurHash3 : Nat → List UInt8 → Nat) (solver : List UInt8 → Option TxnOutType) {f : CBloomFilter}

/-- The scan of a script is defined on a `Sized` filter. -/
theorem scanScript_isSome (hf : Sized f) (pc : List UInt8) : ∃ b, f.scanScript murmurHash3 pc = some b := by
  induction hn : pc.length using Nat.strong_induction_on generalizing pc with
  | _ n ih =>
    rw [scanScript]
    split_ifs with hnil
    · exact ⟨_, rfl⟩
    · split
      · exact ⟨_, rfl⟩
      · rename_i data pc' hget
        obtain ⟨b, hb⟩ := ih _ (hn ▸ getOp2_length_lt hget) pc' rfl
        obtain ⟨c, hc⟩ : ∃ c, f.contains murmurHash3 data = some c := ⟨_, contains_spec murmurHash3 hf data⟩
        dsimp only
        split_ifs with hd
        · rw [hc, Option.bind_eq_bind, Option.bind_some]
          cases c with
          | true => exact ⟨_, rfl⟩
          | false => exact ⟨b, hb⟩
        · exact ⟨b, hb⟩

/-- One output leaves the filter as it was, or inserts the output's
outpoint. -/
theorem matchOutput_spec (hash : Uint256) (hf : Sized f) (i : Nat) (txout : CTxOut) :
    ∃ m, matchOutput murmurHash3 solver hash f i txout = some m ∧
      (m.2 = f ∨ f.insert murmurHash3 (outPointVector hash i) = some m.2) := by
  obtain ⟨b, hscan⟩ := scanScript_isSome murmurHash3 hf txout.scriptPubKey
  obtain ⟨g, hins, -⟩ := insert_keeps murmurHash3 hf (outPointVector hash i)
  unfold matchOutput
  rw [hscan, Option.bind_eq_bind, Option.bind_some]
  cases b with
  | false => exact ⟨_, rfl, Or.inl rfl⟩
  | true =>
    simp only [Bool.not_true, Bool.false_eq_true, if_false]
    split_ifs
    · exact ⟨_, by rw [hins]; rfl, Or.inr hins⟩
    · exact ⟨_, by rw [hins]; rfl, Or.inr hins⟩
    · exact ⟨_, rfl, Or.inl rfl⟩

/-- `MatchAndInsertOutputs` is defined on a `Sized` filter, and what it
leaves is the filter with some outpoints of the transaction inserted. -/
theorem matchAndInsertOutputs_spec (hash : Uint256) (vout : List CTxOut) (hf : Sized f) :
    ∃ m keys, f.matchAndInsertOutputs murmurHash3 solver hash vout = some m ∧
      f.insertAll murmurHash3 keys = some m.2 ∧ ∀ k ∈ keys, k ∈ (List.range vout.length).map (outPointVector hash) := by
  by_cases hfull : f.isFull = true
  · exact ⟨_, [], by rw [matchAndInsertOutputs, if_pos hfull], rfl, fun _ h => absurd h List.not_mem_nil⟩
  by_cases hempty : f.isEmpty = true
  · exact ⟨_, [], by rw [matchAndInsertOutputs, if_neg hfull, if_pos hempty], rfl,
      fun _ h => absurd h List.not_mem_nil⟩
  obtain ⟨m, hloop, keys, hkeys, -, hout⟩ := @OptionLoop.foldlM_exists _ _ (fun (r : Bool × CBloomFilter) (x : CTxOut × Nat) => do
      let m ← matchOutput murmurHash3 solver hash r.2 x.2 x.1
      pure (r.1 || m.1, m.2))
    (fun r => ∃ keys, f.insertAll murmurHash3 keys = some r.2 ∧ Sized r.2 ∧
      ∀ k ∈ keys, k ∈ (List.range vout.length).map (outPointVector hash))
    vout.zipIdx (!f.isEmpty && (f.hashBits murmurHash3 hash.data f.nHashFuncs).all (bitSet f.vData), f)
    ⟨[], rfl, hf, fun _ h => absurd h List.not_mem_nil⟩ (by
      rintro ⟨txout, i⟩ hmem ⟨b, g⟩ ⟨keys, hrun, hg, hkeys⟩
      have hi : i < vout.length := by simpa using (List.mem_zipIdx hmem).2.1
      obtain ⟨m, hm, hcase⟩ := matchOutput_spec murmurHash3 solver hash hg i txout
      refine ⟨(b || m.1, m.2), by simp only [hm, Option.bind_eq_bind, Option.bind_some]; rfl, ?_⟩
      rcases hcase with hsame | hins
      · exact ⟨keys, hsame ▸ hrun, hsame ▸ hg, hkeys⟩
      · refine ⟨keys ++ [outPointVector hash i], ?_, ?_, fun k hk => ?_⟩
        · rw [insertAll_append, hrun, Option.bind_some]
          simp [insertAll, hins]
        · obtain ⟨g', hins', hg', -⟩ := insert_keeps murmurHash3 hg (outPointVector hash i)
          rw [hins] at hins'
          exact Option.some.inj hins' ▸ hg'
        · rcases List.mem_append.mp hk with hk | hk
          · exact hkeys k hk
          · rw [List.mem_singleton.mp hk]
            exact List.mem_map.mpr ⟨i, List.mem_range.mpr hi, rfl⟩)
  refine ⟨m, keys, ?_, hkeys, hout⟩
  rw [matchAndInsertOutputs, if_neg hfull, if_neg hempty, contains_spec murmurHash3 hf]
  simp only [Bool.not_eq_true] at hfull
  simp only [hfull, Bool.false_or, Option.bind_eq_bind, Option.bind_some]
  exact hloop

end matching

/-! ## Runs of calls -/

section runs

variable (murmurHash3 : Nat → List UInt8 → Nat) (solver : List UInt8 → Option TxnOutType)

/-- A call is a list of inserts: its own key, or outpoints of its
transaction. -/
theorem applyCall_spec (c : Call) {f : CBloomFilter} (hf : Sized f) :
    ∃ g keys, applyCall murmurHash3 solver f c = some g ∧ f.insertAll murmurHash3 keys = some g ∧
      (∀ k ∈ c.keys, k ∈ keys) ∧ ∀ k ∈ keys, k ∈ c.keys ∨ k ∈ c.outPoints := by
  cases c with
  | insert vKey =>
    obtain ⟨g, hins, -⟩ := insert_keeps murmurHash3 hf vKey
    refine ⟨g, [vKey], hins, by simp [insertAll, hins], fun k hk => hk, fun k hk => Or.inl hk⟩
  | matchAndInsertOutputs hash vout =>
    obtain ⟨m, keys, hm, hrun, hkeys⟩ := matchAndInsertOutputs_spec murmurHash3 solver hash vout hf
    exact ⟨m.2, keys, by rw [applyCall, hm]; rfl, hrun, fun _ h => absurd h List.not_mem_nil,
      fun k hk => Or.inr (hkeys k hk)⟩

/-- From a `Sized` filter, a run of calls is defined, and ends with the
filter it started from with a list of keys inserted: every key passed to
`insert`, and outpoints of the transactions. Every key of that list is
contained. -/
theorem runCalls_spec (calls : List Call) :
    ∀ {f : CBloomFilter}, Sized f → ∃ g keys, runCalls murmurHash3 solver f calls = some g ∧
      f.insertAll murmurHash3 keys = some g ∧ (∀ c ∈ calls, ∀ k ∈ c.keys, k ∈ keys) ∧
      (∀ k ∈ keys, ∃ c ∈ calls, k ∈ c.keys ∨ k ∈ c.outPoints) ∧ ∀ k ∈ keys, g.contains murmurHash3 k = some true := by
  induction calls with
  | nil =>
    exact fun hf => ⟨_, [], rfl, rfl, fun _ h => absurd h List.not_mem_nil, fun _ h => absurd h List.not_mem_nil,
      fun _ h => absurd h List.not_mem_nil⟩
  | cons c calls ih =>
    intro f hf
    obtain ⟨f₁, keys₁, happ, hrun₁, hown₁, hfrom₁⟩ := applyCall_spec murmurHash3 solver c hf
    obtain ⟨g₁, hrun₁', hf₁, -⟩ := insertAll_keeps murmurHash3 keys₁ hf
    rw [hrun₁] at hrun₁'
    cases hrun₁'
    obtain ⟨g, keys, hrun, hins, hown, hfrom, -⟩ := ih hf₁
    have hall : f.insertAll murmurHash3 (keys₁ ++ keys) = some g := by
      rw [insertAll_append, hrun₁, Option.bind_some, hins]
    obtain ⟨g', hg', -, hcont, -⟩ := insertAll_keeps murmurHash3 (keys₁ ++ keys) hf
    rw [hall, Option.some.injEq] at hg'
    subst hg'
    refine ⟨g, keys₁ ++ keys, by rw [runCalls, List.foldlM_cons, happ]; exact hrun, hall, ?_, ?_, hcont⟩
    · intro c' hc' k hk
      rcases List.mem_cons.mp hc' with rfl | hc'
      · exact List.mem_append_left _ (hown₁ k hk)
      · exact List.mem_append_right _ (hown c' hc' k hk)
    · intro k hk
      rcases List.mem_append.mp hk with hk | hk
      · exact ⟨c, List.mem_cons_self, hfrom₁ k hk⟩
      · obtain ⟨c', hc', hkc⟩ := hfrom k hk
        exact ⟨c', List.mem_cons_of_mem c hc', hkc⟩

end runs

end CBloomFilter

/-- No false negatives in the filters of the node. A `CBloomFilter` built by a
constructor, read by `SerializationOp`, cleared or reset, through any calls
of `insert` and `MatchAndInsertOutputs`, contains every key inserted. A
`CVariableFastFilter` sized with fewer than 16 hash functions contains every
hash inserted. A `CFastFilter` with `FILTER_SIZE` a power of two of at least
8 bits contains, after a construction or reset, every hash passed to
`insert` or `checkAndSet`, and a `CRollingFastFilter` contains the hash it
inserted last. -/
theorem bloomFilters_no_false_negatives (murmurHash3 : Nat → List UInt8 → Nat)
    (solver : List UInt8 → Option TxnOutType) :
    (∀ {f₀ : CBloomFilter}, CBloomFilter.Start f₀ → ∀ calls : List CBloomFilter.Call,
      ∃ g keys, CBloomFilter.runCalls murmurHash3 solver f₀ calls = some g ∧
        f₀.insertAll murmurHash3 keys = some g ∧ (∀ c ∈ calls, ∀ k ∈ c.keys, k ∈ keys) ∧
        (∀ k ∈ keys, ∃ c ∈ calls, k ∈ c.keys ∨ k ∈ c.outPoints) ∧
        ∀ k ∈ keys, g.contains murmurHash3 k = some true) ∧
    (∀ {b : UInt32} {est : Int}, 1 ≤ b.toNat → b.toNat < 2 ^ 29 → est < 16 → ∀ hashes : List Uint256,
      ∃ g, (CVariableFastFilter.ofSize b est).insertAll hashes = some g ∧ ∀ h ∈ hashes, g.contains h = some true) ∧
    (∀ {filterSize numHashFns : Nat}, CFastFilter.Params filterSize numHashFns → ∀ {f : CFastFilter},
      f.vData.length = CFastFilter.filterBytes filterSize → ∀ calls : List CFastFilter.Call,
      ∃ g, CFastFilter.runCalls filterSize numHashFns f calls = some g ∧
        ∀ c ∈ calls, CFastFilter.contains filterSize numHashFns g c.hash = some true) ∧
    (∀ {filterSize : Nat}, CFastFilter.Params filterSize 16 → ∀ {f : CRollingFastFilter},
      f.vData.length = CFastFilter.filterBytes filterSize → ∀ hash : Uint256,
      ∃ g, CRollingFastFilter.insert filterSize f hash = some g ∧
        CFastFilter.contains filterSize 16 g.toCFastFilter hash = some true) := by
  refine ⟨?_, ?_, ?_, ?_⟩
  · intro f₀ hstart calls
    exact CBloomFilter.runCalls_spec murmurHash3 solver calls hstart.sized
  · intro b est hb1 hb hest hashes
    obtain ⟨g, hrun, -, -, -, -, -, hcont⟩ := CVariableFastFilter.insertAll_contains
      (CVariableFastFilter.ofSize_inBounds hb1 hb est) (CVariableFastFilter.ofSize_nHashFuncs b hest).2 hashes
    exact ⟨g, hrun, hcont⟩
  · intro filterSize numHashFns hp f hlen calls
    obtain ⟨g, hrun, -, hcont⟩ := CFastFilter.runCalls_contains hp calls hlen
    exact ⟨g, hrun, hcont⟩
  · intro filterSize hp f hlen hash
    obtain ⟨g, hins, -, hcont⟩ := CRollingFastFilter.insert_contains hp hash hlen
    exact ⟨g, hins, hcont⟩

theorem bloomFilters_no_false_negatives_examples :
    (∃ g keys, CBloomFilter.runCalls (fun seed d => seed + d.length) (fun _ => none)
        (CBloomFilter.setup 2 3 0 1 true smallestMaxBloomFilterSize) [.insert [7]] = some g ∧
      (CBloomFilter.setup 2 3 0 1 true smallestMaxBloomFilterSize).insertAll (fun seed d => seed + d.length) keys =
        some g ∧
      (∀ c ∈ [CBloomFilter.Call.insert [7]], ∀ k ∈ c.keys, k ∈ keys) ∧
      (∀ k ∈ keys, ∃ c ∈ [CBloomFilter.Call.insert [7]], k ∈ c.keys ∨ k ∈ c.outPoints) ∧
      ∀ k ∈ keys, g.contains (fun seed d => seed + d.length) k = some true) ∧
    (∃ g, (CVariableFastFilter.ofSize 8 3).insertAll [default] = some g ∧ ∀ h ∈ [default], g.contains h = some true) ∧
    (∃ g, CFastFilter.runCalls 64 16 (CFastFilter.init 64) [.insert default] = some g ∧
      ∀ c ∈ [CFastFilter.Call.insert default], CFastFilter.contains 64 16 g c.hash = some true) ∧
    (∃ g, CRollingFastFilter.insert 64 ⟨CFastFilter.init 64, 0, 16⟩ default = some g ∧
      CFastFilter.contains 64 16 g.toCFastFilter default = some true) :=
  ⟨(bloomFilters_no_false_negatives (fun seed d => seed + d.length) (fun _ => none)).1
      (.setup 2 3 0 1 true smallestMaxBloomFilterSize) [.insert [7]],
    (bloomFilters_no_false_negatives (fun seed d => seed + d.length) (fun _ => none)).2.1
      (by decide) (by decide) (by decide) [default],
    (bloomFilters_no_false_negatives (fun seed d => seed + d.length) (fun _ => none)).2.2.1
      ⟨⟨6, by decide, by decide, rfl⟩, by decide⟩ rfl [.insert default],
    (bloomFilters_no_false_negatives (fun seed d => seed + d.length) (fun _ => none)).2.2.2
      ⟨⟨6, by decide, by decide, rfl⟩, by decide⟩ rfl default⟩

/-- The filters the sizing cannot keep in bounds. `CVariableFastFilter(1, p)`
with `p` near `4.5e-14` sizes `nFilterBytes = 8` and estimates 44 hash
functions, which the constructor caps to 32, and the loops read past the hash.
`CFastFilter<4>` passes the `static_assert`s with no bytes at all. -/
theorem bloomFilters_sizes_past_bounds :
    (CVariableFastFilter.ofSize 8 44).nHashFuncs = 32 ∧ (CVariableFastFilter.ofSize 8 44).insert default = none ∧
    CFastFilter.init 4 = ⟨[]⟩ ∧ CFastFilter.insert 4 16 (CFastFilter.init 4) default = none :=
  ⟨rfl, (CVariableFastFilter.loops_undefined_of_sixteen_le (by decide) default).1, rfl, rfl⟩

end Membercoin
