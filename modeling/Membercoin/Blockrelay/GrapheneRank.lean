import Membercoin.Lib.BitBuffer
import Membercoin.Lib.FloatRounding

/-!
# Graphene: recording and restoring the transaction order

A Graphene block announcement sends the block's cheap hashes as a set. To let
the receiver restore their order, the sender also sends `encodedRank`. For
each position of the sorted hashes it records the index that hash has in the
block (`ArgSort`), packed low-order first at `nBits = ceil(log2 n)` bits per
index (`EncodeRank`). The receiver unpacks the indices (`DecodeRank`), sorts
the set it reconstructed, and places the `i`-th smallest hash at position
`itemRank[i]`: the end of `Reconcile`.

The model follows `blockrelay/graphene_set.cpp`. Whatever the C++ leaves
undefined is `none`:
* a write or read past the end of the bit buffer;
* a shift of a `uint64_t` by 64 or more;
* a shift of the `int` that `bits[k] << j` promotes to, by 32 or more;
* a placement past the end of the ordered list.

A failed `assert` is `none` as well. Cheap hashes and ranks are `uint64_t`
values, kept here as natural numbers.

Two details of the source decide where the round trip holds.
* The word count `int(ceil(nBitsPerItem * nItems / float(WORD_BITS)))` goes
  through a 32-bit float, so the product is first rounded to 24 significant
  bits (`encodedWordCount`).
* In `DecodeRank`, `bits[k] << j` is an `int`, so bit 31 lands in the sign
  bit and is sign-extended when it is OR-ed into the `uint64_t`.

The round trip holds (`decodeRank_encodeRank`) whenever the word count covers
the bits and the ranks have at most 31 bits. Both conditions hold for the
ranks of up to `2 ^ 20` hashes, and then `Reconcile` returns the block's
order (`reconcileOrdered_recordTransactionOrder`).
-/

namespace Membercoin

open BitBuffer FloatRounding

/-- `WORD_BITS`: the bits of one encoded byte. -/
def wordBits : Nat := 8

/-- `nEncodedWords = int(ceil(nBitsPerItem * nItems / float(WORD_BITS)))`.
The product is converted to a 32-bit float (24-bit significand) before the
division, which is then exact. -/
def encodedWordCount (nBitsPerItem nItems : Nat) : Nat :=
  (roundNearestEven 24 (nBitsPerItem * nItems) + wordBits - 1) / wordBits

/-- `(item >> j) & 1` for a `uint64_t` item: undefined from `j = 64` on. -/
def itemBit (item j : Nat) : Option Bool :=
  if j < 64 then some (item.testBit j) else none

/-- One round of the first loop of `EncodeRank`: the assert
`ceil(log2(item)) <= nBitsPerItem`, then the low `nBitsPerItem` bits of
`items[i]` at `j + i * nBitsPerItem`. -/
def encodeItem (nBitsPerItem : Nat) (bits : List Bool) (item i : Nat) : Option (List Bool) :=
  if Nat.clog 2 item ≤ nBitsPerItem then
    (List.range nBitsPerItem).foldlM
      (fun bits j => itemBit item j >>= setChecked bits (j + i * nBitsPerItem)) bits
  else none

/-- `encoded[i] |= bits[j + i * WORD_BITS] << j` for `j < WORD_BITS`. -/
def encodeWord (bits : List Bool) (i : Nat) : UInt8 :=
  UInt8.ofNat (orBits (fun j => bits.getD (j + i * wordBits) false) wordBits)

/-- `CGrapheneSet::EncodeRank`. The bit buffer is allocated uninitialised, and
`junk` is what it holds. -/
def encodeRank (junk : Nat → Bool) (items : List Nat) (nBitsPerItem : Nat) : Option (List UInt8) := do
  let nEncodedWords := encodedWordCount nBitsPerItem items.length
  let bits ← (List.range items.length).foldlM
    (fun bits i => encodeItem nBitsPerItem bits (items.getD i 0) i)
    ((List.range (nEncodedWords * wordBits)).map junk)
  pure ((List.range nEncodedWords).map (encodeWord bits))

/-- One round of the first loop of `DecodeRank`: the bits of `encoded[i]`,
low-order first, at `j + i * WORD_BITS`. Reading past the end of `encoded` is
undefined. -/
def decodeWord (encoded : List UInt8) (bits : List Bool) (i : Nat) : Option (List Bool) := do
  let word ← encoded[i]?
  (List.range wordBits).foldlM
    (fun bits j => setChecked bits (j + i * wordBits) (word.toNat.testBit j)) bits

/-- `bits[k] << j`, OR-ed into a `uint64_t`. The bool is promoted to `int`,
so the shift is undefined from `j = 32` on, and at `j = 31` a set bit gives
`INT_MIN`, which converts to `2 ^ 64 - 2 ^ 31`. -/
def shiftedBit (bits : List Bool) (k j : Nat) : Option Nat := do
  let bit ← bits[k]?
  if j < 31 then pure (bit.toNat <<< j)
  else if j = 31 then pure (if bit then 2 ^ 64 - 2 ^ 31 else 0)
  else none

/-- The second loop of `DecodeRank` for `items[i]`. -/
def decodeItem (bits : List Bool) (nBitsPerItem i : Nat) : Option Nat :=
  (List.range nBitsPerItem).foldlM
    (fun item j => shiftedBit bits (j + i * nBitsPerItem) j >>= fun v => pure (item ||| v)) 0

/-- `CGrapheneSet::DecodeRank`. The first loop writes every position of the
bit buffer before the second reads it, so its initial contents do not
matter. -/
def decodeRank (encoded : List UInt8) (nItems nBitsPerItem : Nat) : Option (List Nat) := do
  let nEncodedWords := encodedWordCount nBitsPerItem nItems
  let bits ← (List.range nEncodedWords).foldlM (decodeWord encoded)
    (List.replicate (nEncodedWords * wordBits) false)
  (List.range nItems).mapM (decodeItem bits nBitsPerItem)

/-- `CGrapheneSet::ArgSort`: the positions of `items` ordered by the value at
each. `std::sort` is not stable, but for pairwise distinct values, as cheap
hashes are, every sort gives this order. -/
def argSort (items : List Nat) : List Nat :=
  (List.range items.length).insertionSort fun i j => items.getD i 0 ≤ items.getD j 0

/-- `uint8_t nBits = ceil(log2(n))`, in the constructor and in `Reconcile`. -/
def rankBits (n : Nat) : Nat := Nat.clog 2 n

/-- The end of the `CGrapheneSet` constructor for an ordered set. -/
def recordTransactionOrder (junk : Nat → Bool) (cheapHashes : List Nat) : Option (List UInt8) :=
  encodeRank junk (argSort cheapHashes) (rankBits cheapHashes.length)

/-- The end of `CGrapheneSet::Reconcile` for an ordered set.
`receiverSetItems` holds the items of the receiver's `std::set`, which are
sorted again; the `i`-th smallest goes to position `itemRank[i]`. -/
def reconcileOrdered (encodedRank : List UInt8) (receiverSetItems : List Nat) : Option (List Nat) := do
  let nBits := rankBits receiverSetItems.length
  let itemRank ← decodeRank encodedRank receiverSetItems.length nBits
  let sortedItems := receiverSetItems.insertionSort (· ≤ ·)
  (List.range itemRank.length).foldlM
    (fun orderedSetItems i => setChecked orderedSetItems (itemRank.getD i 0) (sortedItems.getD i 0))
    (List.replicate itemRank.length 0)

example : reconcileOrdered [0b100001] [3, 5, 9] = some [5, 3, 9] := by decide

section encode

variable {junk : Nat → Bool} {items : List Nat} {b : Nat}

/-- A round of the first loop whose bits fit in the buffer. -/
theorem encodeItem_eq {bits : List Bool} {item i : Nat} (hb : b ≤ 64) (hitem : item ≤ 2 ^ b)
    (hfit : (i + 1) * b ≤ bits.length) :
    encodeItem b bits item i = some (overwrite bits (i * b) b item.testBit) := by
  rw [encodeItem, if_pos ((Nat.clog_le_iff_le_pow (by decide)).mpr hitem)]
  apply foldlM_setChecked bits (i * b) b (itemBit item) item.testBit
  · intro j hj
    exact if_pos (by omega)
  · rw [Nat.succ_mul] at hfit
    omega

/-- A round of the first loop whose bits run past the end of the buffer. -/
theorem encodeItem_eq_none {bits : List Bool} {item i : Nat} (hb : b ≤ 64) (hpos : 0 < b)
    (hitem : item ≤ 2 ^ b) (hout : bits.length < (i + 1) * b) :
    encodeItem b bits item i = none := by
  rw [encodeItem, if_pos ((Nat.clog_le_iff_le_pow (by decide)).mpr hitem)]
  apply foldlM_setChecked_eq_none bits (i * b) b (itemBit item) item.testBit _ hpos
  · rw [Nat.succ_mul] at hout
    omega
  · intro j hj
    exact if_pos (by omega)

theorem getD_mem_of_lt {l : List Nat} {i : Nat} (hi : i < l.length) : l.getD i 0 ∈ l := by
  rw [List.getD_eq_getElem l 0 hi]
  exact List.getElem_mem hi

/-- `EncodeRank` when the word count covers the bits: item `k / b` supplies
bit `k` of the buffer for every `k < items.length * b`. -/
theorem encodeRank_eq (hb : b ≤ 64) (hitems : ∀ x ∈ items, x ≤ 2 ^ b)
    (hcover : items.length * b ≤ encodedWordCount b items.length * wordBits) :
    encodeRank junk items b = some ((List.range (encodedWordCount b items.length)).map
      (encodeWord (fillBlocks ((List.range (encodedWordCount b items.length * wordBits)).map junk)
        items.length b fun i j => (items.getD i 0).testBit j))) := by
  have hloop := foldlM_blocks ((List.range (encodedWordCount b items.length * wordBits)).map junk)
    items.length b (fun i j => (items.getD i 0).testBit j)
    (fun bits i => encodeItem b bits (items.getD i 0) i)
    (fun bits i hi hl => encodeItem_eq hb (hitems _ (getD_mem_of_lt hi))
      (by rw [hl, List.length_map, List.length_range]; exact le_trans (Nat.mul_le_mul_right b hi) hcover))
    (by rw [List.length_map, List.length_range]; exact hcover)
  simp only [encodeRank, hloop]
  rfl

/-- `EncodeRank` when the word count falls short of the bits: the first loop
writes past the end of its buffer. -/
theorem encodeRank_eq_none (hb : b ≤ 64) (hpos : 0 < b) (hitems : ∀ x ∈ items, x ≤ 2 ^ b)
    (hshort : encodedWordCount b items.length * wordBits < items.length * b) :
    encodeRank junk items b = none := by
  have hlen : ((List.range (encodedWordCount b items.length * wordBits)).map junk).length =
      encodedWordCount b items.length * wordBits := by
    rw [List.length_map, List.length_range]
  have hloop := foldlM_blocks_eq_none ((List.range (encodedWordCount b items.length * wordBits)).map junk)
    items.length b (fun i j => (items.getD i 0).testBit j)
    (fun bits i => encodeItem b bits (items.getD i 0) i)
    (fun bits i hi hl hfit => encodeItem_eq hb (hitems _ (getD_mem_of_lt hi)) (by rw [hl]; exact hfit))
    (fun bits i hi hl hout => encodeItem_eq_none hb hpos (hitems _ (getD_mem_of_lt hi)) (by rw [hl]; exact hout))
    (by rw [hlen]; exact hshort)
  simp only [encodeRank, hloop]
  rfl

/-- Bit `j` of encoded word `i` is bit `j + i * 8` of the buffer. -/
theorem testBit_encodeWord (bits : List Bool) (i j : Nat) :
    (encodeWord bits i).toNat.testBit j =
      (decide (j < wordBits) && bits.getD (j + i * wordBits) false) := by
  have hlt : orBits (fun j => bits.getD (j + i * wordBits) false) wordBits < UInt8.size :=
    orBits_lt _ _
  rw [encodeWord, UInt8.toNat_ofNat_of_lt' hlt, testBit_orBits]

/-- Bit `k` of a list of encoded words is bit `k` of the buffer. -/
theorem testBit_getD_encodeWord (bits : List Bool) {W k : Nat} (hk : k < W * wordBits) :
    (((List.range W).map (encodeWord bits)).getD (k / wordBits) 0).toNat.testBit (k % wordBits) =
      bits.getD k false := by
  have hw : k / wordBits < W := Nat.div_lt_of_lt_mul (by rw [Nat.mul_comm]; exact hk)
  rw [List.getD_eq_getElem _ _ (by simpa using hw), List.getElem_map, List.getElem_range,
    testBit_encodeWord, Nat.mod_add_div' k wordBits]
  simp [Nat.mod_lt k (by decide : 0 < wordBits)]

/-- A word that lies inside the filled blocks does not depend on what the
buffer held before. -/
theorem encodeWord_fillBlocks (l : List Bool) (m b : Nat) (F : Nat → Nat → Bool) {i : Nat}
    (hi : (i + 1) * wordBits ≤ m * b) (hl : m * b ≤ l.length) :
    encodeWord (fillBlocks l m b F) i =
      UInt8.ofNat (orBits (fun j => F ((j + i * wordBits) / b) ((j + i * wordBits) % b)) wordBits) := by
  rw [encodeWord]
  congr 1
  apply orBits_congr
  intro j hj
  rw [Nat.succ_mul] at hi
  exact getD_fillBlocks_of_lt l m b F false (by omega) hl

end encode

section decode

variable {encoded : List UInt8} {b : Nat}

/-- A round of the first loop of `DecodeRank` inside `encoded` and the
buffer. -/
theorem decodeWord_eq {bits : List Bool} {i : Nat} (hi : i < encoded.length)
    (hfit : (i + 1) * wordBits ≤ bits.length) :
    decodeWord encoded bits i =
      some (overwrite bits (i * wordBits) wordBits (encoded.getD i 0).toNat.testBit) := by
  rw [decodeWord, List.getElem?_eq_getElem hi, List.getD_eq_getElem _ _ hi]
  exact foldlM_setChecked bits (i * wordBits) wordBits (fun j => some (encoded[i].toNat.testBit j)) _
    (fun _ _ => rfl) (by rw [Nat.succ_mul] at hfit; omega)

/-- The first loop of `DecodeRank` unpacks every word that `encoded` has. -/
theorem foldlM_decodeWord {W : Nat} (hW : W ≤ encoded.length) :
    (List.range W).foldlM (decodeWord encoded) (List.replicate (W * wordBits) false) =
      some (fillBlocks (List.replicate (W * wordBits) false) W wordBits
        fun i j => (encoded.getD i 0).toNat.testBit j) :=
  foldlM_blocks _ W wordBits _ (decodeWord encoded)
    (fun _ i hi hl => decodeWord_eq (by omega)
      (by rw [hl, List.length_replicate]; exact Nat.mul_le_mul_right wordBits hi))
    (by rw [List.length_replicate])

/-- `bits[k] << j` below the sign bit of an `int`. -/
theorem shiftedBit_of_lt {bits : List Bool} {k j : Nat} (hk : k < bits.length) (hj : j < 31) :
    shiftedBit bits k j = some ((bits.getD k false).toNat <<< j) := by
  rw [shiftedBit, List.getElem?_eq_getElem hk, List.getD_eq_getElem _ _ hk]
  exact if_pos hj

/-- The second loop of `DecodeRank` for an item of at most 31 bits. -/
theorem decodeItem_eq {bits : List Bool} {i : Nat} (hb : b ≤ 31) (hfit : (i + 1) * b ≤ bits.length) :
    decodeItem bits b i = some (orBits (fun j => bits.getD (j + i * b) false) b) :=
  foldlM_or _ _ b fun j hj => shiftedBit_of_lt (by rw [Nat.succ_mul] at hfit; omega) (by omega)

/-- `DecodeRank` for items of at most 31 bits when `encoded` has every word
and the word count covers the bits: item `i` is read from bits `i * b` to
`i * b + b - 1` of `encoded`. -/
theorem decodeRank_eq {n : Nat} (hb : b ≤ 31) (hlen : encodedWordCount b n ≤ encoded.length)
    (hcover : n * b ≤ encodedWordCount b n * wordBits) :
    decodeRank encoded n b = some ((List.range n).map fun i =>
      orBits (fun j => (encoded.getD ((j + i * b) / wordBits) 0).toNat.testBit
        ((j + i * b) % wordBits)) b) := by
  simp only [decodeRank, foldlM_decodeWord hlen, Option.bind_eq_bind, Option.bind_some]
  apply mapM_eq_some_map
  intro i hi
  have hfit : (i + 1) * b ≤ n * b := Nat.mul_le_mul_right b (List.mem_range.mp hi)
  rw [decodeItem_eq hb (by rw [length_fillBlocks, List.length_replicate]; omega)]
  congr 1
  apply orBits_congr
  intro j hj
  have hk : j + i * b < encodedWordCount b n * wordBits := by
    rw [Nat.succ_mul] at hfit
    omega
  rw [getD_fillBlocks_of_lt _ _ _ _ _ hk (by rw [List.length_replicate])]

/-- Reading `encoded[i]` past the end of the received vector. -/
theorem decodeWord_eq_none {bits : List Bool} {i : Nat} (hi : encoded.length ≤ i) :
    decodeWord encoded bits i = none := by
  rw [decodeWord, List.getElem?_eq_none hi]
  rfl

/-- `DecodeRank` takes its word count from the local item count, never from
`encoded`: a shorter `encoded` is read past its end. -/
theorem decodeRank_eq_none_of_short {n : Nat} (h : encoded.length < encodedWordCount b n) :
    decodeRank encoded n b = none := by
  have hread := foldlM_range_eq_none (decodeWord encoded) h (fun _ => decodeWord_eq_none le_rfl)
  simp only [decodeRank, hread, Option.bind_eq_bind, Option.bind_none]

/-- `DecodeRank` returns one rank per item. -/
theorem length_decodeRank {n : Nat} {ranks : List Nat} (h : decodeRank encoded n b = some ranks) :
    ranks.length = n := by
  simp only [decodeRank, Option.bind_eq_bind] at h
  obtain ⟨bits, _, hranks⟩ := Option.bind_eq_some_iff.mp h
  rw [length_eq_of_mapM_eq_some hranks, List.length_range]

end decode

/-- The round trip: items of at most 31 bits come back when the word count
covers their bits. -/
theorem decodeRank_encodeRank {junk : Nat → Bool} {items : List Nat} {b : Nat} (hb : b ≤ 31)
    (hitems : ∀ x ∈ items, x < 2 ^ b)
    (hcover : items.length * b ≤ encodedWordCount b items.length * wordBits) :
    ∃ e, encodeRank junk items b = some e ∧ decodeRank e items.length b = some items := by
  refine ⟨_, encodeRank_eq (by omega) (fun x hx => (hitems x hx).le) hcover, ?_⟩
  rw [decodeRank_eq hb (by simp) hcover]
  congr 1
  conv => rhs; rw [← map_range_getD items 0]
  apply List.map_congr_left
  intro i hi
  have hi' : i < items.length := List.mem_range.mp hi
  have hbit : ∀ j < b, (j + i * b) / b = i ∧ (j + i * b) % b = j := by
    intro j hj
    refine ⟨?_, ?_⟩
    · rw [Nat.add_mul_div_right _ _ (by omega), Nat.div_eq_of_lt hj, Nat.zero_add]
    · rw [Nat.add_mul_mod_self_right, Nat.mod_eq_of_lt hj]
  refine (orBits_congr ?_).trans (orBits_testBit (hitems _ (getD_mem_of_lt hi')))
  intro j hj
  have hk : j + i * b < items.length * b := by
    have hnext := Nat.mul_le_mul_right b (Nat.succ_le_of_lt hi')
    rw [Nat.succ_mul] at hnext
    omega
  rw [testBit_getD_encodeWord _ (lt_of_lt_of_le hk hcover),
    getD_fillBlocks_of_lt _ _ _ _ _ hk (by simpa using hcover), (hbit j hj).1, (hbit j hj).2]

section order

theorem length_argSort (c : List Nat) : (argSort c).length = c.length := by
  rw [argSort, List.length_insertionSort, List.length_range]

theorem argSort_perm (c : List Nat) : (argSort c).Perm (List.range c.length) :=
  List.perm_insertionSort _ _

theorem lt_of_mem_argSort {c : List Nat} {x : Nat} (hx : x ∈ argSort c) : x < c.length :=
  List.mem_range.mp ((argSort_perm c).subset hx)

/-- Reading the values in the order `ArgSort` gives sorts them. -/
theorem map_argSort (c : List Nat) : (argSort c).map (c.getD · 0) = c.insertionSort (· ≤ ·) := by
  let r : Nat → Nat → Prop := fun i j => c.getD i 0 ≤ c.getD j 0
  have : Std.Total r := ⟨fun i j => le_total _ _⟩
  have : IsTrans Nat r := ⟨fun _ _ _ => le_trans⟩
  have hsorted : List.Pairwise r (argSort c) := List.pairwise_insertionSort r (List.range c.length)
  apply List.Perm.eq_of_sortedLE (List.pairwise_map.mpr hsorted).sortedLE List.sortedLE_insertionSort
  have hmap : ((argSort c).map (c.getD · 0)).Perm ((List.range c.length).map (c.getD · 0)) :=
    (argSort_perm c).map _
  rw [map_range_getD] at hmap
  exact hmap.trans (List.perm_insertionSort _ c).symm

/-- The receiver places every item where the sender's `ArgSort` says, when
its set is the sender's. -/
theorem reconcileOrdered_eq {e : List UInt8} {c receiverSetItems : List Nat} (hc : c.Nodup)
    (hdec : decodeRank e c.length (rankBits c.length) = some (argSort c))
    (hnodup : receiverSetItems.Nodup) (hset : receiverSetItems.toFinset = c.toFinset) :
    reconcileOrdered e receiverSetItems = some c := by
  have hperm : receiverSetItems.Perm c := List.perm_of_nodup_nodup_toFinset_eq hnodup hc hset
  have hsorted : receiverSetItems.insertionSort (· ≤ ·) = (argSort c).map (c.getD · 0) := by
    rw [map_argSort]
    apply List.Perm.eq_of_sortedLE List.sortedLE_insertionSort List.sortedLE_insertionSort
    exact (List.perm_insertionSort _ _).trans (hperm.trans (List.perm_insertionSort _ _).symm)
  simp only [reconcileOrdered, hperm.length_eq, hdec, Option.bind_eq_bind, Option.bind_some,
    hsorted, length_argSort]
  have hplace := foldlM_scatter (argSort c) c.length (argSort_perm c)
    (fun i => ((argSort c).map (c.getD · 0)).getD i 0) (c.getD · 0)
    (fun i hi => by
      have hi' : i < (argSort c).length := by rw [length_argSort]; exact hi
      rw [List.getD_eq_getElem _ _ (by simpa using hi'), List.getElem_map,
        List.getD_eq_getElem (argSort c) 0 hi'])
    (List.replicate c.length 0) (List.length_replicate)
  rw [hplace, map_range_getD]

/-- Nothing checks the size of a peer's `encodedRank`: one shorter than the
word count of the local set is read past its end. -/
theorem reconcileOrdered_eq_none_of_short {e : List UInt8} {receiverSetItems : List Nat}
    (h : e.length < encodedWordCount (rankBits receiverSetItems.length) receiverSetItems.length) :
    reconcileOrdered e receiverSetItems = none := by
  simp only [reconcileOrdered, decodeRank_eq_none_of_short h, Option.bind_eq_bind, Option.bind_none]

/-- Nor the decoded ranks: `nBits`-wide fields reach `2 ^ nBits - 1`, and one
rank at or past the item count sends an item past the end of
`orderedSetItems`. -/
theorem reconcileOrdered_eq_none_of_rank {e : List UInt8} {receiverSetItems itemRank : List Nat}
    (hdec : decodeRank e receiverSetItems.length (rankBits receiverSetItems.length) = some itemRank)
    (hbad : ∃ i < receiverSetItems.length, receiverSetItems.length ≤ itemRank.getD i 0) :
    reconcileOrdered e receiverSetItems = none := by
  have hlen := length_decodeRank hdec
  simp only [reconcileOrdered, hdec, Option.bind_eq_bind, Option.bind_some]
  apply foldlM_setChecked_eq_none_of_le
  rw [List.length_replicate, hlen]
  exact hbad

/-- Peer bytes that break `Reconcile` against a local set of three items with
cheap hashes `1`, `2`, `3` (two bits per rank, in one word). An empty
`encodedRank` is read past its end. `0xFF` decodes the ranks `3`, `3`, `3`,
and the first is placed past the end of the ordered list. `0x10` decodes the
ranks `0`, `0`, `1`: every placement is in range, but the result holds `0`
where the item `1` belongs, and is no permutation of the set. -/
theorem reconcileOrdered_peer_ranks :
    reconcileOrdered [] [1, 2, 3] = none ∧ reconcileOrdered [0xFF] [1, 2, 3] = none ∧
      reconcileOrdered [0x10] [1, 2, 3] = some [2, 3, 0] ∧ ¬ [2, 3, 0].Perm [1, 2, 3] := by
  refine ⟨reconcileOrdered_eq_none_of_short (by decide), ?_, by decide, by decide⟩
  exact reconcileOrdered_eq_none_of_rank (show decodeRank [0xFF] 3 (rankBits 3) = some [3, 3, 3] by decide)
    ⟨0, by decide, by decide⟩

end order

/-- The word count covers the bits when the float holds their number
exactly. -/
theorem le_encodedWordCount {b n : Nat} (h : roundNearestEven 24 (b * n) = b * n) :
    n * b ≤ encodedWordCount b n * wordBits := by
  rw [encodedWordCount, h, wordBits, Nat.mul_comm n b]
  omega

theorem le_encodedWordCount_of_lt {b n : Nat} (h : b * n < 2 ^ 24) :
    n * b ≤ encodedWordCount b n * wordBits :=
  le_encodedWordCount (by simpa using roundNearestEven_mul_two_pow h 0)

/-- The ranks of up to `2 ^ 20` hashes have at most 20 bits, and the word
count covers them: below `2 ^ 24` the product is exact, and at 20 bits per
rank it is even. -/
theorem rankBits_le_and_cover {n : Nat} (h : n ≤ 2 ^ 20) :
    rankBits n ≤ 20 ∧ n * rankBits n ≤ encodedWordCount (rankBits n) n * wordBits := by
  have hle : rankBits n ≤ 20 := (Nat.clog_le_iff_le_pow (by decide)).mpr h
  refine ⟨hle, le_encodedWordCount ?_⟩
  by_cases h19 : rankBits n ≤ 19
  · have hn : n ≤ 2 ^ 19 := (Nat.clog_le_iff_le_pow (by decide)).mp h19
    have hlt : rankBits n * n < 2 ^ 24 :=
      calc rankBits n * n ≤ 19 * 2 ^ 19 := Nat.mul_le_mul h19 hn
        _ < 2 ^ 24 := by decide
    simpa using roundNearestEven_mul_two_pow hlt 0
  · have h20 : rankBits n = 20 := by omega
    have hlt : 10 * n < 2 ^ 24 := by omega
    have hexact := roundNearestEven_mul_two_pow hlt 1
    rw [show 10 * n * 2 ^ 1 = 20 * n by ring] at hexact
    rw [h20]
    exact hexact

/-- The rank round trip and the order `Reconcile` restores. Items of at most
31 bits come back from `EncodeRank` and `DecodeRank` while their bits number
fewer than `2 ^ 24`. For a block of up to `2 ^ 20` distinct cheap hashes, the
recorded rank decodes to `ArgSort`, and a receiver whose set has the same
items gets the block's order back from `Reconcile`. -/
theorem rankCoding_roundtrip (junk : Nat → Bool) :
    (∀ (items : List Nat) (b : Nat), b ≤ 31 → b * items.length < 2 ^ 24 →
      (∀ x ∈ items, x < 2 ^ b) →
      ∃ e, encodeRank junk items b = some e ∧ decodeRank e items.length b = some items) ∧
    (∀ c : List Nat, c.Nodup → 0 < c.length → c.length ≤ 2 ^ 20 →
      ∃ e, recordTransactionOrder junk c = some e ∧
        decodeRank e c.length (rankBits c.length) = some (argSort c) ∧
        ∀ receiverSetItems : List Nat, receiverSetItems.Nodup →
          receiverSetItems.toFinset = c.toFinset → reconcileOrdered e receiverSetItems = some c) := by
  refine ⟨?_, ?_⟩
  · intro items b hb hsmall hitems
    exact decodeRank_encodeRank hb hitems (le_encodedWordCount_of_lt hsmall)
  · intro c hc _ hsize
    obtain ⟨hbits, hcover⟩ := rankBits_le_and_cover hsize
    have hranks : ∀ x ∈ argSort c, x < 2 ^ rankBits c.length := by
      intro x hx
      have hpow : c.length ≤ 2 ^ rankBits c.length := Nat.le_pow_clog (by decide) _
      exact lt_of_lt_of_le (lt_of_mem_argSort hx) hpow
    obtain ⟨e, henc, hdec⟩ := decodeRank_encodeRank (by omega) hranks
      (by rw [length_argSort]; exact hcover)
    rw [length_argSort] at hdec
    exact ⟨e, henc, hdec, fun r hr hs => reconcileOrdered_eq hc hdec hr hs⟩

theorem rankCoding_roundtrip_threeHashes :
    ∃ e, recordTransactionOrder (fun _ => false) [5, 3, 9] = some e ∧
      decodeRank e 3 (rankBits 3) = some (argSort [5, 3, 9]) ∧
      ∀ receiverSetItems : List Nat, receiverSetItems.Nodup →
        receiverSetItems.toFinset = [5, 3, 9].toFinset →
          reconcileOrdered e receiverSetItems = some [5, 3, 9] :=
  (rankCoding_roundtrip fun _ => false).2 [5, 3, 9] (by decide) (by decide) (by decide)

/-- Where the round trip breaks. A rank with bit 31 set, packed at 32 bits,
is encoded as expected whatever the buffer held, but decodes sign-extended.
For a block of 1048581 hashes (21 bits per rank) the float word count is one
byte short, so `EncodeRank` writes past the end of its buffer. -/
theorem rankCoding_breaks :
    (∀ junk : Nat → Bool, encodeRank junk [2 ^ 31] 32 = some [0, 0, 0, 128]) ∧
      decodeRank [0, 0, 0, 128] 1 32 = some [2 ^ 64 - 2 ^ 31] ∧
      (List.range 1048581).Nodup ∧
      ∀ junk : Nat → Bool, recordTransactionOrder junk (List.range 1048581) = none := by
  refine ⟨?_, by decide, List.nodup_range, ?_⟩
  · intro junk
    rw [encodeRank_eq (by decide) (by decide) (by decide)]
    have hW : encodedWordCount 32 [2 ^ 31].length = 4 := by decide
    rw [hW]
    congr 1
    apply List.ext_getElem (by simp)
    intro i h₁ h₂
    have hi : i < 4 := by simpa using h₁
    rw [List.getElem_map, List.getElem_range,
      encodeWord_fillBlocks _ _ _ _ (by simp [wordBits]; omega) (by simp [wordBits])]
    interval_cases i <;> rfl
  · intro junk
    have h21 : rankBits 1048581 = 21 := by decide
    apply encodeRank_eq_none
    · rw [List.length_range, h21]
      decide
    · rw [List.length_range, h21]
      decide
    · intro x hx
      have hlt := lt_of_mem_argSort hx
      rw [List.length_range] at hlt ⊢
      rw [h21]
      omega
    · rw [length_argSort, List.length_range, h21]
      decide

end Membercoin
