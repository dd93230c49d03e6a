import Membercoin.Blockrelay.CompactBlockCodec
import Membercoin.Lib.GapCode

/-!
# Compact blocks keep the order of the transactions

The constructor sends a block as a gap code (`GapCode`): the transactions it
marks, the coinbase and those the filter does not contain, go whole with the
number of short IDs since the previous one, and the others as short IDs
(`make_eq`). `process` decodes any compact block, whatever its indexes
(`process_fst`, `process_snd`): an index of 0 and an iterator that stops at
the end are the cases of `List.take`. `validateCompactBlock` accepts a block
only when the indexes never run past the short IDs (`validateCompactBlock_fits`),
and accepts what the constructor builds from a block with a header that is
not null and no null transaction (`validateCompactBlock_make`).
-/

namespace Membercoin

open GapCode

namespace CompactBlock

variable {Tx : Type} (ops : TxOps Tx)

/-! ## The constructor -/

/-- What the constructor sends whole: the coinbase, and what the filter sends
whole. -/
def isPrefilled (inventoryKnown : Option (Uint256 → Bool)) (txi : Tx × Nat) : Bool :=
  txi.2 == 0 || sendsWhole inventoryKnown (ops.getHash txi.1)

/-- The gap code of the transactions of a block, with their positions. -/
def encoded (inventoryKnown : Option (Uint256 → Bool)) (vtx : List Tx) : List (Nat × (Tx × Nat)) × List (Tx × Nat) :=
  encodeFrom (isPrefilled ops inventoryKnown) 0 vtx.zipIdx

/-- The short IDs of the transactions sent as short IDs. -/
def toShortIDs (shortID : Uint256 → Nat) (us : List (Tx × Nat)) : List Nat := us.map fun txi => shortID (ops.getHash txi.1)

/-- The prefilled transactions of the marked transactions and their gaps. -/
def toPrefilled (ps : List (Nat × (Tx × Nat))) : List (PrefilledTransaction Tx) := ps.map fun e => ⟨e.1, e.2.1⟩

/-- The constructor's loop from transaction `i` on sends the rest as a gap
code, its first gap counting the short IDs since `prevIndex`. -/
theorem foldl_makeStep (shortID : Uint256 → Nat) (inventoryKnown : Option (Uint256 → Bool)) :
    ∀ (rest : List Tx) (i : Nat) (st : MakeState Tx), st.prevIndex < i → i + rest.length ≤ 2 ^ 32 →
      ((rest.zipIdx i).foldl (makeStep ops shortID inventoryKnown) st).shorttxids =
          st.shorttxids ++ toShortIDs ops shortID
            (encodeFrom (isPrefilled ops inventoryKnown) (i - (st.prevIndex + 1)) (rest.zipIdx i)).2 ∧
        ((rest.zipIdx i).foldl (makeStep ops shortID inventoryKnown) st).prefilledtxn =
          st.prefilledtxn ++ toPrefilled (encodeFrom (isPrefilled ops inventoryKnown) (i - (st.prevIndex + 1))
            (rest.zipIdx i)).1
  | [], _, st, _, _ => by simp [encodeFrom, toShortIDs, toPrefilled]
  | x :: rest, i, st, hprev, hlen => by
    have hlen' : i + 1 + rest.length ≤ 2 ^ 32 := by simp at hlen; omega
    rw [List.zipIdx_cons, List.foldl_cons]
    by_cases hs : sendsWhole inventoryKnown (ops.getHash x)
    · have hmark : isPrefilled ops inventoryKnown (x, i) = true := by simp [isPrefilled, hs]
      have ih := foldl_makeStep shortID inventoryKnown rest (i + 1)
        ⟨i, st.shorttxids, st.prefilledtxn ++ [⟨(i - (st.prevIndex + 1)) % 2 ^ 32, x⟩]⟩ (Nat.lt_succ_self i) hlen'
      rw [Nat.sub_self] at ih
      have hgap : (i - (st.prevIndex + 1)) % 2 ^ 32 = i - (st.prevIndex + 1) := Nat.mod_eq_of_lt (by omega)
      simp only [makeStep, hs, if_true, encodeFrom, hmark, hgap] at ih ⊢
      simp only [ih, toPrefilled, List.map_cons, List.append_assoc, List.singleton_append, true_and]
    · have hmark : isPrefilled ops inventoryKnown (x, i) = false := by
        simp only [isPrefilled, hs, Bool.or_false, beq_eq_false_iff_ne]
        omega
      have ih := foldl_makeStep shortID inventoryKnown rest (i + 1)
        { st with shorttxids := st.shorttxids ++ [shortID (ops.getHash x)] } (by simp only; omega) hlen'
      rw [show i + 1 - (st.prevIndex + 1) = i - (st.prevIndex + 1) + 1 by omega] at ih
      simp only [makeStep, hs, Bool.false_eq_true, if_false, encodeFrom, hmark] at ih ⊢
      simp only [ih, toShortIDs, List.map_cons, List.append_assoc, List.singleton_append, and_true]

/-- The constructor sends a block as the gap code of its transactions. -/
theorem make_eq (sha256 : List UInt8 → Uint256) (sipHash : Nat → Nat → Uint256 → Nat) (header : CBlockHeader)
    (coinbase : Tx) (rest : List Tx) (inventoryKnown : Option (Uint256 → Bool)) (nonce : Nat)
    (hlen : rest.length < 2 ^ 32) :
    ∃ cb, make sha256 sipHash ops ⟨header, coinbase :: rest⟩ inventoryKnown nonce = some cb ∧
      cb.header = header ∧ cb.nonce = nonce ∧
      cb.shorttxids = toShortIDs ops (cb.shortID sha256 sipHash) (encoded ops inventoryKnown (coinbase :: rest)).2 ∧
      cb.prefilledtxn = toPrefilled (encoded ops inventoryKnown (coinbase :: rest)).1 := by
  have hloop := foldl_makeStep ops (getShortID sipHash (fillShortTxIDSelector sha256 header nonce).1
    (fillShortTxIDSelector sha256 header nonce).2) inventoryKnown rest 1 ⟨0, [], [⟨0, coinbase⟩]⟩ Nat.zero_lt_one
    (by omega)
  have hmark : isPrefilled ops inventoryKnown (coinbase, 0) = true := by simp [isPrefilled]
  refine ⟨_, rfl, rfl, rfl, ?_, ?_⟩
  · rw [hloop.1]
    simp [encoded, encodeFrom, hmark]
    rfl
  · rw [hloop.2]
    simp [encoded, encodeFrom, hmark, toPrefilled]

theorem length_toShortIDs (shortID : Uint256 → Nat) (us : List (Tx × Nat)) :
    (toShortIDs ops shortID us).length = us.length := List.length_map _

theorem length_toPrefilled (ps : List (Nat × (Tx × Nat))) : (toPrefilled ps).length = ps.length := List.length_map _

theorem sum_index_toPrefilled (ps : List (Nat × (Tx × Nat))) :
    ((toPrefilled ps).map (·.index)).sum = gapSum ps := by
  simp [toPrefilled, gapSum, Function.comp_def]

theorem index_le_of_mem_toPrefilled {ps : List (Nat × (Tx × Nat))} {p : PrefilledTransaction Tx}
    (hp : p ∈ toPrefilled ps) : p.index ≤ gapSum ps := by
  rw [← sum_index_toPrefilled]
  exact List.le_sum_of_mem (List.mem_map_of_mem hp)

/-- The transactions sent whole are the coinbase and those the filter sends
whole, in block order. -/
theorem encoded_prefilled_txs (inventoryKnown : Option (Uint256 → Bool)) (coinbase : Tx) (rest : List Tx) :
    (toPrefilled (encoded ops inventoryKnown (coinbase :: rest)).1).map (·.tx) =
      coinbase :: rest.filter fun tx => sendsWhole inventoryKnown (ops.getHash tx) := by
  have hsnd := map_snd_encodeFrom (isPrefilled ops inventoryKnown) 0 (coinbase :: rest).zipIdx
  have hmap : (toPrefilled (encoded ops inventoryKnown (coinbase :: rest)).1).map (·.tx) =
      ((encoded ops inventoryKnown (coinbase :: rest)).1.map Prod.snd).map Prod.fst := by
    simp [toPrefilled, Function.comp_def]
  have hrest : (rest.zipIdx 1).filter (isPrefilled ops inventoryKnown) =
      (rest.zipIdx 1).filter fun txi => sendsWhole inventoryKnown (ops.getHash txi.1) := by
    apply List.filter_congr
    intro txi htxi
    have := List.le_snd_of_mem_zipIdx htxi
    simp only [isPrefilled, Bool.or_eq_right_iff_imp, beq_iff_eq]
    omega
  rw [hmap, encoded, hsnd, List.zipIdx_cons, List.filter_cons, if_pos (by simp [isPrefilled]), hrest,
    List.map_cons]
  congr 1
  conv_rhs => rw [← List.zipIdx_map_fst 1 rest, List.filter_map]
  rfl

/-- Every transaction sent whole is one of the block's. -/
theorem tx_mem_of_mem_encoded {inventoryKnown : Option (Uint256 → Bool)} {coinbase : Tx} {rest : List Tx}
    {p : PrefilledTransaction Tx} (hp : p ∈ toPrefilled (encoded ops inventoryKnown (coinbase :: rest)).1) :
    p.tx ∈ coinbase :: rest := by
  have hmem : p.tx ∈ (toPrefilled (encoded ops inventoryKnown (coinbase :: rest)).1).map (·.tx) :=
    List.mem_map_of_mem hp
  rw [encoded_prefilled_txs] at hmem
  rcases List.mem_cons.mp hmem with h | h
  · exact h ▸ List.mem_cons_self
  · exact List.mem_cons_of_mem _ (List.mem_of_mem_filter h)

/-- The short IDs of a block's transactions are at most 48 bits. -/
theorem getShortID_lt (sipHash : Nat → Nat → Uint256 → Nat) (k0 k1 : Nat) (txhash : Uint256) :
    getShortID sipHash k0 k1 txhash < 2 ^ 48 := by
  rw [getShortID, show (0xffffffffffff : Nat) = 2 ^ 48 - 1 from rfl, Nat.and_two_pow_sub_one_eq_mod]
  exact Nat.mod_lt _ (by decide)

/-! ## Rebuilding the order -/

theorem addShortIDs_eq : ∀ (n : Nat) (iter vTxHashes : List Nat),
    addShortIDs n iter vTxHashes = (iter.drop n, vTxHashes ++ iter.take n)
  | 0, _, _ => by simp [addShortIDs]
  | _ + 1, [], _ => by simp [addShortIDs]
  | n + 1, s :: iter, vTxHashes => by
    rw [addShortIDs, addShortIDs_eq n iter, List.drop_succ_cons, List.take_succ_cons, List.append_assoc,
      List.singleton_append]

/-- The loop of `process` decodes the prefilled transactions against the
short IDs left in the iterator. -/
theorem foldl_processPrefilled_hashes (shortID : Tx → Nat) :
    ∀ (ps : List (PrefilledTransaction Tx)) (st : ProcessState Tx),
      (ps.foldl (processPrefilled shortID) st).vTxHashes ++ (ps.foldl (processPrefilled shortID) st).iterShortID =
        st.vTxHashes ++ decode (ps.map fun p => (p.index, shortID p.tx)) st.iterShortID
  | [], _ => rfl
  | p :: ps, st => by
    rw [List.foldl_cons, foldl_processPrefilled_hashes shortID ps, List.map_cons, decode]
    by_cases h0 : p.index = 0
    · simp [processPrefilled, h0]
    · simp [processPrefilled, h0, addShortIDs_eq]

/-- `mapMissingTx` holds, for each short ID, the last prefilled transaction
with that short ID. -/
theorem foldl_processPrefilled_missing (shortID : Tx → Nat) :
    ∀ (ps : List (PrefilledTransaction Tx)) (st : ProcessState Tx) (k : Nat),
      (ps.foldl (processPrefilled shortID) st).mapMissingTx k =
        ((ps.map (·.tx)).reverse.find? fun tx => shortID tx = k).or (st.mapMissingTx k)
  | [], _, _ => rfl
  | p :: ps, st, k => by
    rw [List.foldl_cons, foldl_processPrefilled_missing shortID ps, List.map_cons, List.reverse_cons,
      List.find?_append, Option.or_assoc]
    congr 1
    by_cases hk : shortID p.tx = k
    · by_cases h0 : p.index = 0 <;> simp [processPrefilled, insertMissing, h0, hk]
    · by_cases h0 : p.index = 0 <;> simp [processPrefilled, insertMissing, h0, hk, Ne.symm hk]

variable (sha256 : List UInt8 → Uint256) (sipHash : Nat → Nat → Uint256 → Nat)

/-- The prefilled transactions as a gap code of short IDs. -/
def prefilledCode (cb : CompactBlock Tx) : List (Nat × Nat) :=
  cb.prefilledtxn.map fun p => (p.index, cb.shortID sha256 sipHash (ops.getHash p.tx))

/-- `process` rebuilds `vTxHashes` by decoding the prefilled transactions
against the short IDs, for any compact block. -/
theorem process_fst (cb : CompactBlock Tx) :
    (cb.process sha256 sipHash ops).1 = decode (prefilledCode ops sha256 sipHash cb) cb.shorttxids := by
  unfold process
  split_ifs with h
  · rw [prefilledCode, List.isEmpty_iff.mp h]
    rfl
  · exact foldl_processPrefilled_hashes _ _ ⟨cb.shorttxids, [], fun _ => none⟩

/-- `mapMissingTx` maps each short ID to the last prefilled transaction with
that short ID. -/
theorem process_snd (cb : CompactBlock Tx) (k : Nat) :
    (cb.process sha256 sipHash ops).2 k =
      (cb.prefilledtxn.map (·.tx)).reverse.find? fun tx => cb.shortID sha256 sipHash (ops.getHash tx) = k := by
  unfold process
  split_ifs with h
  · rw [List.isEmpty_iff.mp h]
    rfl
  · dsimp only
    rw [foldl_processPrefilled_missing]
    exact Option.or_none

/-- The position that the differential indexes give the `k`-th prefilled
transaction is its position in the gap code. -/
theorem prefilledPosition_eq (cb : CompactBlock Tx) (k : Nat) :
    cb.prefilledPosition k = pos (prefilledCode ops sha256 sipHash cb) k := by
  simp only [prefilledPosition, pos, prefilledCode, ← List.map_take, List.map_map]
  rfl

end CompactBlock

/-! ## Validation -/

section validate

variable {Tx : Type} (ops : TxOps Tx)

/-- One round of the loop of `validateCompactBlock`. -/
theorem validatePrefilled_cons (nShortIDs : Nat) (last : Int) (p : PrefilledTransaction Tx) (i : Nat)
    (rest : List (PrefilledTransaction Tx × Nat)) :
    validatePrefilled ops nShortIDs last ((p, i) :: rest) =
      if ops.isNull p.tx then .error "null tx in compact block"
      else if last + p.index + 1 > 0xffffffff then .error "tx index overflows"
      else if (last + p.index + 1).toNat > nShortIDs + i then .error "invalid index for tx"
      else validatePrefilled ops nShortIDs (last + p.index + 1) rest := by
  simp only [validatePrefilled]
  split_ifs <;> rfl

/-- The loop accepts non-null transactions whose indexes stay within the
short IDs and whose positions fit 32 bits; `s` counts the short IDs the
earlier indexes used and `i` the earlier prefilled transactions. -/
theorem validatePrefilled_ok (nShortIDs : Nat) :
    ∀ (ps : List (PrefilledTransaction Tx)) (s i : Nat), (∀ p ∈ ps, ops.isNull p.tx = false) →
      s + (ps.map (·.index)).sum ≤ nShortIDs → s + (ps.map (·.index)).sum + i + ps.length ≤ 2 ^ 32 →
      validatePrefilled ops nShortIDs (((s + i : Nat) : Int) - 1) (ps.zipIdx i) = .ok ()
  | [], _, _, _, _, _ => rfl
  | p :: ps, s, i, hnull, hsum, hlen => by
    simp only [List.map_cons, List.sum_cons, List.length_cons] at hsum hlen
    have hlast : ((s + i : Nat) : Int) - 1 + p.index + 1 = ((s + p.index + (i + 1) : Nat) : Int) - 1 := by
      push_cast
      ring
    rw [List.zipIdx_cons, validatePrefilled_cons, if_neg (by simp [hnull p List.mem_cons_self]), hlast,
      if_neg (by omega), if_neg (by omega)]
    exact validatePrefilled_ok nShortIDs ps (s + p.index) (i + 1) (fun q hq => hnull q (List.mem_cons_of_mem p hq))
      (by omega) (by omega)

/-- What the loop accepts has indexes that never run past the short IDs. -/
theorem validatePrefilled_fits (nShortIDs : Nat) :
    ∀ (ps : List (PrefilledTransaction Tx)) (s i : Nat), s ≤ nShortIDs →
      validatePrefilled ops nShortIDs (((s + i : Nat) : Int) - 1) (ps.zipIdx i) = .ok () →
      s + (ps.map (·.index)).sum ≤ nShortIDs
  | [], _, _, hs, _ => by simpa using hs
  | p :: ps, s, i, hs, h => by
    have hlast : ((s + i : Nat) : Int) - 1 + p.index + 1 = ((s + p.index + (i + 1) : Nat) : Int) - 1 := by
      push_cast
      ring
    rw [List.zipIdx_cons, validatePrefilled_cons, hlast] at h
    split_ifs at h with h1 h2 h3
    have hs' : s + p.index ≤ nShortIDs := by omega
    have := validatePrefilled_fits nShortIDs ps (s + p.index) (i + 1) hs' h
    simp only [List.map_cons, List.sum_cons]
    omega

/-- A compact block that `validateCompactBlock` accepts has indexes that never
run past its short IDs. -/
theorem validateCompactBlock_fits (sha256 : List UInt8 → Uint256) (sipHash : Nat → Nat → Uint256 → Nat)
    {cb : CompactBlock Tx} (h : validateCompactBlock ops cb = .ok ()) :
    Fits (CompactBlock.prefilledCode ops sha256 sipHash cb) cb.shorttxids := by
  unfold validateCompactBlock at h
  split_ifs at h
  have := validatePrefilled_fits ops cb.shorttxids.length cb.prefilledtxn 0 0 (Nat.zero_le _) h
  simpa [Fits, gapSum, CompactBlock.prefilledCode, Function.comp_def] using this

end validate

/-! ## Relaying a block -/

section relay

variable {Tx : Type} (sha256 : List UInt8 → Uint256) (sipHash : Nat → Nat → Uint256 → Nat) (ops : TxOps Tx)

open CompactBlock

/-- A block whose header is not null, with fewer than `MAX_SIZE`
transactions after the coinbase and none of them null. -/
structure Relayable (header : CBlockHeader) (coinbase : Tx) (rest : List Tx) : Prop where
  nBits_ne : header.nBits ≠ 0
  length_lt : rest.length < maxSize
  not_null : ∀ tx ∈ coinbase :: rest, ops.isNull tx = false

variable {header : CBlockHeader} {coinbase : Tx} {rest : List Tx} {inventoryKnown : Option (Uint256 → Bool)}
  {nonce : Nat}

theorem Relayable.length_lt_two_pow (h : Relayable ops header coinbase rest) : rest.length < 2 ^ 32 :=
  Nat.lt_trans h.length_lt (by decide)

/-- `validateCompactBlock` accepts what the constructor builds from a block
whose header is not null and whose transactions are not. -/
theorem validateCompactBlock_make (h : Relayable ops header coinbase rest) {cb : CompactBlock Tx}
    (hcb : make sha256 sipHash ops ⟨header, coinbase :: rest⟩ inventoryKnown nonce = some cb) :
    validateCompactBlock ops cb = .ok () := by
  obtain ⟨cb', hmk, hh, -, hs, hp⟩ := make_eq ops sha256 sipHash header coinbase rest inventoryKnown nonce
    h.length_lt_two_pow
  obtain rfl : cb = cb' := Option.some.inj (hcb.symm.trans hmk)
  have henc := length_encode (isPrefilled ops inventoryKnown) (coinbase :: rest).zipIdx
  have hfit := encode_fits (isPrefilled ops inventoryKnown) (coinbase :: rest).zipIdx
  rw [List.length_zipIdx, List.length_cons] at henc
  have hne : cb.prefilledtxn ≠ [] := by
    rw [hp, encoded]
    simp [encodeFrom, isPrefilled, toPrefilled]
  have hlen := h.length_lt
  unfold maxSize at hlen
  unfold validateCompactBlock
  rw [if_neg (by simp [CBlockHeader.isNull, hh, h.nBits_ne, List.isEmpty_iff, hne])]
  refine validatePrefilled_ok ops cb.shorttxids.length cb.prefilledtxn 0 0 (fun p hp' => ?_) ?_ ?_
  · exact h.not_null p.tx (tx_mem_of_mem_encoded ops (hp ▸ hp'))
  · rw [hp, sum_index_toPrefilled, hs, length_toShortIDs]
    simpa [encoded, Fits] using hfit
  · rw [hp, sum_index_toPrefilled, length_toPrefilled]
    simp only [Fits] at hfit
    rw [encoded]
    omega

/-- What the constructor builds from such a block reads back. -/
theorem make_encodable (h : Relayable ops header coinbase rest) (hnonce : nonce < 2 ^ 64) {cb : CompactBlock Tx}
    (hcb : make sha256 sipHash ops ⟨header, coinbase :: rest⟩ inventoryKnown nonce = some cb) : cb.Encodable := by
  obtain ⟨cb', hmk, -, hn, hs, hp⟩ := make_eq ops sha256 sipHash header coinbase rest inventoryKnown nonce
    h.length_lt_two_pow
  obtain rfl : cb = cb' := Option.some.inj (hcb.symm.trans hmk)
  have henc := length_encode (isPrefilled ops inventoryKnown) (coinbase :: rest).zipIdx
  have hfit := encode_fits (isPrefilled ops inventoryKnown) (coinbase :: rest).zipIdx
  rw [List.length_zipIdx, List.length_cons] at henc
  simp only [Fits] at hfit
  have hlen := h.length_lt
  refine ⟨hn ▸ hnonce, fun s hsm => ?_, ?_, ?_, fun p hpm => ?_⟩
  · rw [hs, toShortIDs, List.mem_map] at hsm
    obtain ⟨txi, -, rfl⟩ := hsm
    exact getShortID_lt sipHash _ _ _
  · rw [hs, length_toShortIDs, encoded]
    omega
  · rw [hp, length_toPrefilled, encoded]
    omega
  · rw [hp] at hpm
    have := index_le_of_mem_toPrefilled hpm
    rw [encoded] at this
    omega

/-- `process` rebuilds the short IDs of a block's transactions in block
order from what the constructor built. -/
theorem process_make_fst (h : Relayable ops header coinbase rest) {cb : CompactBlock Tx}
    (hcb : make sha256 sipHash ops ⟨header, coinbase :: rest⟩ inventoryKnown nonce = some cb) :
    (cb.process sha256 sipHash ops).1 = (coinbase :: rest).map fun tx => cb.shortID sha256 sipHash (ops.getHash tx) := by
  obtain ⟨cb', hmk, -, -, hs, hp⟩ := make_eq ops sha256 sipHash header coinbase rest inventoryKnown nonce
    h.length_lt_two_pow
  obtain rfl : cb = cb' := Option.some.inj (hcb.symm.trans hmk)
  have hcode : prefilledCode ops sha256 sipHash cb =
      (encoded ops inventoryKnown (coinbase :: rest)).1.map fun e => (e.1, cb.shortID sha256 sipHash (ops.getHash e.2.1)) := by
    rw [prefilledCode, hp, toPrefilled, List.map_map]
    rfl
  rw [process_fst, hcode, hs, toShortIDs,
    decode_map (fun txi : Tx × Nat => cb.shortID sha256 sipHash (ops.getHash txi.1)), encoded, decode_encode]
  rw [← List.zipIdx_map_fst 0 (coinbase :: rest), List.map_map, List.zipIdx_map_fst]
  rfl

/-- `mapMissingTx` of what the constructor built holds, under each short ID,
the last transaction sent whole with that short ID. -/
theorem process_make_snd (h : Relayable ops header coinbase rest) {cb : CompactBlock Tx}
    (hcb : make sha256 sipHash ops ⟨header, coinbase :: rest⟩ inventoryKnown nonce = some cb) (k : Nat) :
    (cb.process sha256 sipHash ops).2 k =
      (coinbase :: rest.filter fun tx => sendsWhole inventoryKnown (ops.getHash tx)).reverse.find?
        fun tx => cb.shortID sha256 sipHash (ops.getHash tx) = k := by
  obtain ⟨cb', hmk, -, -, -, hp⟩ := make_eq ops sha256 sipHash header coinbase rest inventoryKnown nonce
    h.length_lt_two_pow
  obtain rfl : cb = cb' := Option.some.inj (hcb.symm.trans hmk)
  rw [process_snd, hp, encoded_prefilled_txs]

end relay

end Membercoin
