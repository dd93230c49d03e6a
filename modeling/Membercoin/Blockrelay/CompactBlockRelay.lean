import Membercoin.Blockrelay.CompactBlockOrder

/-!
# Relaying a block as a compact block

From the sender's side: a block whose header is not null and whose
transactions are not null, with fewer than `MAX_SIZE` of them, is turned into
a compact block that reads back, passes `validateCompactBlock`, and from which
`process` rebuilds the short ID of every transaction in block order, with
`mapMissingTx` holding under each short ID the last transaction sent whole
with it. From the receiver's side: for every compact block that
`validateCompactBlock` accepts, `process` puts the `k`-th prefilled
transaction at the position its indexes give and the short IDs in order
everywhere else.

A block with a null header (`nBits = 0`) is refused as "empty data", and two
transactions sent whole with one short ID, which SipHash cut to 48 bits gives
some pair of hashes whatever its keys, leave one of them out of
`mapMissingTx`.
-/

namespace Membercoin

open CompactBlock GapCode ByteCodec

variable {Tx : Type}

/-- Transactions that are their own hash, never null, written as their 32
bytes. -/
def hashTxOps : TxOps Uint256 := ⟨id, fun _ => false, Uint256.serialize, Uint256.unserialize⟩

theorem hashTxOps_roundTrips : hashTxOps.RoundTrips := Uint256.unserialize_serialize

theorem compactBlock_preserves_order (sha256 : List UInt8 → Uint256) (sipHash : Nat → Nat → Uint256 → Nat)
    (ops : TxOps Tx) (hops : ops.RoundTrips) :
    (∀ (header : CBlockHeader) (coinbase : Tx) (rest : List Tx) (inventoryKnown : Option (Uint256 → Bool))
        (nonce : Nat), header.nBits ≠ 0 → nonce < 2 ^ 64 → rest.length < maxSize →
        (∀ tx ∈ coinbase :: rest, ops.isNull tx = false) →
      ∃ cb, make sha256 sipHash ops ⟨header, coinbase :: rest⟩ inventoryKnown nonce = some cb ∧
        CompactBlock.unserialize ops (cb.serialize ops) = some (cb, []) ∧
        validateCompactBlock ops cb = .ok () ∧
        (cb.process sha256 sipHash ops).1 = (coinbase :: rest).map (fun tx => cb.shortID sha256 sipHash (ops.getHash tx)) ∧
        ∀ k, (cb.process sha256 sipHash ops).2 k =
          (coinbase :: rest.filter fun tx => sendsWhole inventoryKnown (ops.getHash tx)).reverse.find?
            fun tx => cb.shortID sha256 sipHash (ops.getHash tx) = k) ∧
    (∀ cb : CompactBlock Tx, validateCompactBlock ops cb = .ok () →
      (cb.process sha256 sipHash ops).1.length = cb.shorttxids.length + cb.prefilledtxn.length ∧
      (∀ k (hk : k < cb.prefilledtxn.length), (cb.process sha256 sipHash ops).1[cb.prefilledPosition k]? =
        some (cb.shortID sha256 sipHash (ops.getHash cb.prefilledtxn[k].tx))) ∧
      dropPositions (cb.process sha256 sipHash ops).1 ((List.range cb.prefilledtxn.length).map cb.prefilledPosition) =
        cb.shorttxids) := by
  refine ⟨fun header coinbase rest inventoryKnown nonce hbits hnonce hlen hnull => ?_, fun cb hv => ?_⟩
  · have hrel : Relayable ops header coinbase rest := ⟨hbits, hlen, hnull⟩
    obtain ⟨cb, hcb, -⟩ := make_eq ops sha256 sipHash header coinbase rest inventoryKnown nonce
      hrel.length_lt_two_pow
    refine ⟨cb, hcb, ?_, validateCompactBlock_make sha256 sipHash ops hrel hcb,
      process_make_fst sha256 sipHash ops hrel hcb, process_make_snd sha256 sipHash ops hrel hcb⟩
    simpa using unserialize_serialize ops hops (make_encodable sha256 sipHash ops hrel hnonce hcb) []
  · have hfit := validateCompactBlock_fits ops sha256 sipHash hv
    have hlen : (prefilledCode ops sha256 sipHash cb).length = cb.prefilledtxn.length := List.length_map _
    have hpos : cb.prefilledPosition = pos (prefilledCode ops sha256 sipHash cb) :=
      funext (prefilledPosition_eq ops sha256 sipHash cb)
    refine ⟨?_, fun k hk => ?_, ?_⟩
    · rw [process_fst, length_decode, hlen, Nat.add_comm]
    · rw [process_fst, hpos, getElem?_decode_pos _ _ hfit k (hlen ▸ hk)]
      simp [prefilledCode]
    · rw [process_fst, hpos, ← hlen, dropPositions_decode hfit]

/-- A header with `nBits = 1`. -/
def sampleHeader : CBlockHeader := ⟨0, default, default, 0, 1, 0⟩

theorem compactBlock_preserves_order_sample :
    hashTxOps.RoundTrips ∧
      ∃ cb, make (fun _ => default) (fun _ _ h => leValue h.data) hashTxOps
          ⟨sampleHeader, [Uint256.ofNat 1, Uint256.ofNat 2]⟩ none 7 = some cb ∧
        validateCompactBlock hashTxOps cb = .ok () ∧
        (cb.process (fun _ => default) (fun _ _ h => leValue h.data) hashTxOps).1.length = 2 := by
  obtain ⟨cb, hcb, -, hv, hp, -⟩ := (compactBlock_preserves_order (fun _ => default) (fun _ _ h => leValue h.data)
    hashTxOps hashTxOps_roundTrips).1 sampleHeader (Uint256.ofNat 1) [Uint256.ofNat 2] none 7 (by decide) (by decide)
    (by decide) (by simp [hashTxOps])
  exact ⟨hashTxOps_roundTrips, cb, hcb, hv, by rw [hp]; rfl⟩

/-- Two hashes with one short ID, the second sent whole as the filter knows
nothing: `mapMissingTx` holds the second under that short ID, and the first,
the coinbase, under none. -/
theorem process_collision (sha256 : List UInt8 → Uint256) (sipHash : Nat → Nat → Uint256 → Nat)
    (header : CBlockHeader) (nonce : Nat) {a b : Uint256} (hab : a ≠ b)
    (hid : getShortID sipHash (fillShortTxIDSelector sha256 header nonce).1 (fillShortTxIDSelector sha256 header nonce).2 a =
      getShortID sipHash (fillShortTxIDSelector sha256 header nonce).1 (fillShortTxIDSelector sha256 header nonce).2 b) :
    ∃ cb, make sha256 sipHash hashTxOps ⟨header, [a, b]⟩ (some fun _ => false) nonce = some cb ∧
      ∀ k, (cb.process sha256 sipHash hashTxOps).2 k ≠ some a := by
  obtain ⟨cb, hcb, hh, hn, -, hp⟩ := make_eq hashTxOps sha256 sipHash header a [b] (some fun _ => false) nonce
    (by simp)
  refine ⟨cb, hcb, fun k hk => ?_⟩
  have hid' : cb.shortID sha256 sipHash a = cb.shortID sha256 sipHash b := by
    simp only [shortID, hh, hn]
    exact hid
  rw [process_snd, hp, encoded_prefilled_txs] at hk
  by_cases hb : cb.shortID sha256 sipHash b = k
  · simp [hashTxOps, sendsWhole, hb] at hk
    exact hab hk.symm
  · simp [hashTxOps, sendsWhole, hid', hb] at hk

theorem compactBlock_null_header_or_collision :
    (∃ cb, make (fun _ => default) (fun _ _ h => leValue h.data) hashTxOps
        ⟨⟨0, default, default, 0, 0, 0⟩, [Uint256.ofNat 1]⟩ none 7 = some cb ∧
      validateCompactBlock hashTxOps cb = .error "empty data in compact block") ∧
    ∃ cb, make (fun _ => default) (fun _ _ h => leValue h.data) hashTxOps
        ⟨sampleHeader, [Uint256.ofNat 1, Uint256.ofNat (1 + 2 ^ 48)]⟩ (some fun _ => false) 7 = some cb ∧
      ∀ k, (cb.process (fun _ => default) (fun _ _ h => leValue h.data) hashTxOps).2 k ≠ some (Uint256.ofNat 1) := by
  refine ⟨⟨_, rfl, by simp [validateCompactBlock, CBlockHeader.isNull]; rfl⟩, ?_⟩
  apply process_collision _ _ sampleHeader 7
  · intro h
    have := Uint256.ofNat_injective (by decide) (by decide) h
    omega
  · simp only [getShortID, Uint256.ofNat, leValue_leBytes, show (0xffffffffffff : Nat) = 2 ^ 48 - 1 from rfl,
      Nat.and_two_pow_sub_one_eq_mod]
    decide

end Membercoin
