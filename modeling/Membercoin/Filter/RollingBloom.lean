import Membercoin.Lib.RotatingTags

/-!
# The rolling Bloom filter

`CRollingBloomFilter` (bloom.cpp) keeps between two and three generations of
`nEntriesPerGeneration` keys. Every filter position holds a two-bit tag,
split over a pair of `uint64_t` words: bit `b` of words `2q` and `2q + 1`.
Tag 0 means unset, and 1, 2, 3 name the generation that last set the
position. A new generation wipes the tags equal to the generation number it
reuses, with a branch-free mask over each pair of words.

The model keeps the words as natural numbers and takes the hash, MurmurHash3,
as a parameter. What the C++ leaves undefined is `none`:
* `% data.size()` when `data` is empty;
* the `int` product `nEntriesPerGeneration * 3` past `INT_MAX`;
* a `double` sizing too large for `uint32_t`.

The floating-point parts of the constructor are parameters as well.

The words refine the abstract tag store of `RotatingTags`: `tagAt` reads a
position's tag from its pair of words. An insert wipes and marks tags as
`RotatingTags.insertAt` does (`Tracks.insert`). So after any inserts since
construction or the last reset, every key of the last three generations is
still contained (`rollingBloom_keeps_recent`). This needs a non-empty `data`.
For `nElements = 2 ^ 32 - 1`, `nElements + 1` wraps to 0 and the constructor
allocates no words at all (`rollingBloom_empty_at_max`).
-/

namespace Membercoin

open RotatingTags

/-- The fields of a `CRollingBloomFilter`. -/
structure RollingBloomFilter where
  nEntriesPerGeneration : Nat
  nEntriesThisGeneration : Nat
  nGeneration : Nat
  data : List Nat
  nTweak : Nat
  nHashFuncs : Nat
  deriving Repr, DecidableEq

namespace RollingBloomFilter

variable (murmurHash3 : Nat → List UInt8 → Nat)

/-- `RollingBloomHash`: MurmurHash3 seeded with `nHashNum * 0xFBA4C795 +
nTweak` in 32-bit arithmetic. -/
def rollingBloomHash (nHashNum nTweak : Nat) (vDataToHash : List UInt8) : Nat :=
  murmurHash3 ((nHashNum * 0xFBA4C795 + nTweak) % 2 ^ 32) vDataToHash

/-- `~(uint64_t)0`. -/
def ones : Nat := 2 ^ 64 - 1

/-- `-(uint64_t)x`. -/
def negMask (x : Nat) : Nat := (2 ^ 64 - x % 2 ^ 64) % 2 ^ 64

/-- One round of the wiping loop of `insert`: words `p` and `p + 1` keep the
bits whose tag differs from the generation's. -/
def wipePair (data : List Nat) (p nGenerationMask1 nGenerationMask2 : Nat) : List Nat :=
  let p1 := data.getD p 0
  let p2 := data.getD (p + 1) 0
  let mask := (p1 ^^^ nGenerationMask1) ||| (p2 ^^^ nGenerationMask2)
  (data.set p (p1 &&& mask)).set (p + 1) (p2 &&& mask)

/-- The wiping loop, over `p = 0, 2, 4, ...` below `data.size()`, which is
even. -/
def wipeLoop (data : List Nat) (nGenerationMask1 nGenerationMask2 : Nat) : List Nat :=
  (List.range (data.length / 2)).foldl
    (fun data i => wipePair data (2 * i) nGenerationMask1 nGenerationMask2) data

/-- The start of a new generation in `insert`: the counter restarts,
`nGeneration` cycles through 1, 2, 3, and the tags of the reused generation
number are wiped. -/
def nextGeneration (f : RollingBloomFilter) : RollingBloomFilter :=
  let nGeneration := if f.nGeneration + 1 = 4 then 1 else f.nGeneration + 1
  { f with
    nEntriesThisGeneration := 0
    nGeneration := nGeneration
    data := wipeLoop f.data (negMask (nGeneration &&& 1)) (negMask (nGeneration >>> 1)) }

/-- The position a hash selects: bit `h & 0x3F` of the word pair
`pos / 2`, where `pos = (h >> 6) % data.size()`, so that `pos & ~1` and
`pos | 1` are its two words. Undefined when `data` is empty. -/
def position (size h : Nat) : Option (Nat × Nat) :=
  if size = 0 then none else some ((h >>> 6) % size / 2, h &&& 0x3F)

/-- One round of the hashing loop of `insert`: bit `bit` of the pair `q`
gets the two bits of `nGeneration`. -/
def setTag (f : RollingBloomFilter) (q bit : Nat) : RollingBloomFilter :=
  let clear := ones ^^^ (1 <<< bit)
  let data := f.data.set (2 * q)
    ((f.data.getD (2 * q) 0 &&& clear) ||| ((f.nGeneration &&& 1) <<< bit))
  let data := data.set (2 * q + 1)
    ((data.getD (2 * q + 1) 0 &&& clear) ||| ((f.nGeneration >>> 1) <<< bit))
  { f with data := data }

/-- `CRollingBloomFilter::insert`. -/
def insert (f : RollingBloomFilter) (vKey : List UInt8) : Option RollingBloomFilter :=
  let f := if f.nEntriesThisGeneration = f.nEntriesPerGeneration then f.nextGeneration else f
  let f := { f with nEntriesThisGeneration := f.nEntriesThisGeneration + 1 }
  (List.range f.nHashFuncs).foldlM
    (fun f n => (position f.data.length (rollingBloomHash murmurHash3 n f.nTweak vKey)).map
      fun p => f.setTag p.1 p.2) f

/-- The generation check that `insert` begins with. -/
def checkGeneration (f : RollingBloomFilter) : RollingBloomFilter :=
  if f.nEntriesThisGeneration = f.nEntriesPerGeneration then f.nextGeneration else f

/-- `CRollingBloomFilter::contains`: every hash's bit is set in one of its
two words. -/
def contains (f : RollingBloomFilter) (vKey : List UInt8) : Option Bool :=
  (List.range f.nHashFuncs).allM fun n =>
    (position f.data.length (rollingBloomHash murmurHash3 n f.nTweak vKey)).map fun p =>
      decide (((f.data.getD (2 * p.1) 0 ||| f.data.getD (2 * p.1 + 1) 0) >>> p.2) &&& 1 ≠ 0)

/-- `CRollingBloomFilter::reset`, with the new random tweak as a
parameter. -/
def reset (nTweak : Nat) (f : RollingBloomFilter) : RollingBloomFilter :=
  { f with
    nTweak := nTweak
    nEntriesThisGeneration := 0
    nGeneration := 1
    data := f.data.map fun _ => 0 }

/-- The `CRollingBloomFilter` constructor. Its `double` computations are
parameters: `hashFuncsEstimate` is `round(logFpRate / log(0.5))` and
`logFactor` is `-log(1.0 - exp(logFpRate / nHashFuncs))`. The rest is
computed exactly: `(nElements + 1) / 2` in `unsigned int`, stored in the
`int` field `nEntriesPerGeneration`, whose product by 3 is an `int`
multiplication, undefined past `INT_MAX`; and converting a `nFilterBits` of
`2 ^ 32` or more to `uint32_t` is undefined. -/
def create (nElements : UInt32) (hashFuncsEstimate : Int) (logFactor : ℚ) (nTweak : Nat) :
    Option RollingBloomFilter :=
  let nHashFuncs := (max 1 (min hashFuncsEstimate 50)).toNat
  let nEntriesPerGeneration := ((nElements + 1) / 2).toNat
  if nEntriesPerGeneration * 3 < 2 ^ 31 then
    let nMaxElements := nEntriesPerGeneration * 3
    let nFilterBits := Nat.ceil ((nHashFuncs * nMaxElements : ℚ) / logFactor)
    if nFilterBits < 2 ^ 32 then
      some (reset nTweak
        { nEntriesPerGeneration := nEntriesPerGeneration
          nEntriesThisGeneration := 0
          nGeneration := 1
          data := List.replicate ((nFilterBits + 63) % 2 ^ 32 / 64 * 2) 0
          nTweak := 0
          nHashFuncs := nHashFuncs })
    else none
  else none

/-- Inserting keys one after another. -/
def insertAll (f : RollingBloomFilter) (keys : List (List UInt8)) : Option RollingBloomFilter :=
  keys.foldlM (insert murmurHash3) f

/-- The tag of position `(q, b)`: bit `b` of word `2q` is its low bit and
bit `b` of word `2q + 1` its high bit. -/
def tagAt (data : List Nat) (p : Nat × Nat) : Nat :=
  ((data.getD (2 * p.1) 0).testBit p.2).toNat + 2 * ((data.getD (2 * p.1 + 1) 0).testBit p.2).toNat

/-- The positions the hashes of a key select in a filter of `size` words. -/
def keyPositions (nHashFuncs nTweak size : Nat) (vKey : List UInt8) : List (Nat × Nat) :=
  (List.range nHashFuncs).map fun n =>
    ((rollingBloomHash murmurHash3 n nTweak vKey >>> 6) % size / 2,
      rollingBloomHash murmurHash3 n nTweak vKey &&& 0x3F)

section words

theorem getD_set_of_ne {l : List Nat} {i j v : Nat} (h : i ≠ j) : (l.set i v).getD j 0 = l.getD j 0 := by
  simp [List.getD_eq_getElem?_getD, h]

theorem getD_set_self {l : List Nat} {i v : Nat} (h : i < l.length) : (l.set i v).getD i 0 = v := by
  simp [List.getD_eq_getElem?_getD, h]

theorem testBit_negMask {x b : Nat} (hx : x ≤ 1) (hb : b < 64) :
    (negMask x).testBit b = decide (x = 1) := by
  interval_cases x
  · rw [show negMask 0 = 0 by decide]
    simp
  · rw [show negMask 1 = 2 ^ 64 - 1 by decide, Nat.testBit_two_pow_sub_one]
    simp [hb]

/-- The two tag bits of a generation number below 4 spell the number. -/
theorem tag_of_generation {g : Nat} (hg : g < 4) :
    (decide (g &&& 1 = 1)).toNat + 2 * (decide (g >>> 1 = 1)).toNat = g := by
  interval_cases g <;> decide

/-- The tag of a wiped pair at one bit: cleared exactly where it is the
generation's. -/
theorem wipe_tag (p1 p2 g b : Nat) (hg1 : 1 ≤ g) (hg : g < 4) (hb : b < 64) :
    let mask := (p1 ^^^ negMask (g &&& 1)) ||| (p2 ^^^ negMask (g >>> 1))
    ((p1 &&& mask).testBit b).toNat + 2 * ((p2 &&& mask).testBit b).toNat =
      if (p1.testBit b).toNat + 2 * (p2.testBit b).toNat = g then 0
      else (p1.testBit b).toNat + 2 * (p2.testBit b).toNat := by
  have hlow : g &&& 1 ≤ 1 := Nat.and_le_right
  have hhigh : g >>> 1 ≤ 1 := by
    rw [Nat.shiftRight_eq_div_pow]
    omega
  simp only [Nat.testBit_and, Nat.testBit_or, Nat.testBit_xor, testBit_negMask hlow hb,
    testBit_negMask hhigh hb]
  generalize p1.testBit b = t1
  generalize p2.testBit b = t2
  interval_cases g <;> cases t1 <;> cases t2 <;> decide

/-- Bit `b` after `(w & ~(1 << bit)) | (v << bit)`. -/
theorem testBit_setBit (w v bit b : Nat) (hv : v ≤ 1) (hbit : bit < 64) (hb : b < 64) :
    ((w &&& (ones ^^^ (1 <<< bit))) ||| (v <<< bit)).testBit b =
      if b = bit then decide (v = 1) else w.testBit b := by
  simp only [ones, Nat.testBit_or, Nat.testBit_and, Nat.testBit_xor, Nat.testBit_two_pow_sub_one,
    Nat.one_shiftLeft, Nat.testBit_two_pow, Nat.testBit_shiftLeft]
  by_cases hbb : b = bit
  · subst hbb
    interval_cases v <;> simp [hb]
  · rw [if_neg hbb]
    have hv' : v.testBit (b - bit) = false ∨ b < bit := by
      rcases Nat.lt_or_ge b bit with h | h
      · exact Or.inr h
      · left
        apply Nat.testBit_lt_two_pow
        calc v < 2 ^ 1 := by omega
          _ ≤ 2 ^ (b - bit) := Nat.pow_le_pow_right (by decide) (by omega)
    rcases hv' with hv' | hlt
    · simp [hb, Ne.symm hbb, hv']
    · simp [hb, Ne.symm hbb, Nat.not_le.mpr hlt]

/-- The bit `contains` tests is set exactly where the tag is not 0. -/
theorem containsBit_iff (w1 w2 b : Nat) :
    ((w1 ||| w2) >>> b) &&& 1 ≠ 0 ↔ (w1.testBit b).toNat + 2 * (w2.testBit b).toNat ≠ 0 := by
  have hbit : ((w1 ||| w2) >>> b) &&& 1 ≠ 0 ↔ (w1 ||| w2).testBit b = true := by
    simp [Nat.testBit]
  rw [hbit, Nat.testBit_or]
  cases w1.testBit b <;> cases w2.testBit b <;> decide

end words

section loops

/-- The wiping loop transforms each pair of words on its own. After the
rounds for the first `j` pairs, those pairs are wiped and the rest are as
they were. -/
theorem wipeLoop_getD (data : List Nat) (m1 m2 : Nat) {q : Nat} (hq : q < data.length / 2) :
    let mask := (data.getD (2 * q) 0 ^^^ m1) ||| (data.getD (2 * q + 1) 0 ^^^ m2)
    (wipeLoop data m1 m2).getD (2 * q) 0 = data.getD (2 * q) 0 &&& mask ∧
      (wipeLoop data m1 m2).getD (2 * q + 1) 0 = data.getD (2 * q + 1) 0 &&& mask := by
  let W (q : Nat) := (data.getD (2 * q) 0 ^^^ m1) ||| (data.getD (2 * q + 1) 0 ^^^ m2)
  have hrun : ∀ j ≤ data.length / 2,
      let D := (List.range j).foldl (fun data i => wipePair data (2 * i) m1 m2) data
      D.length = data.length ∧ ∀ q,
        (q < j → D.getD (2 * q) 0 = data.getD (2 * q) 0 &&& W q ∧
          D.getD (2 * q + 1) 0 = data.getD (2 * q + 1) 0 &&& W q) ∧
        (j ≤ q → D.getD (2 * q) 0 = data.getD (2 * q) 0 ∧
          D.getD (2 * q + 1) 0 = data.getD (2 * q + 1) 0) := by
    intro j
    induction j with
    | zero =>
      intro _
      simp
    | succ j ih =>
      intro hj
      obtain ⟨hlen, hpairs⟩ := ih (by omega)
      simp only [List.range_succ, List.foldl_append, List.foldl_cons, List.foldl_nil]
      generalize (List.range j).foldl (fun data i => wipePair data (2 * i) m1 m2) data = D
        at hlen hpairs ⊢
      have hread := (hpairs j).2 le_rfl
      simp only [wipePair, hread.1, hread.2]
      refine ⟨by simp [hlen], ?_⟩
      intro q
      by_cases hqj : q = j
      · subst hqj
        refine ⟨fun _ => ⟨?_, ?_⟩, fun h => absurd h (by omega)⟩
        · rw [getD_set_of_ne (by omega), getD_set_self (by rw [hlen]; omega)]
        · rw [getD_set_self (by simp [hlen]; omega)]
      · rw [getD_set_of_ne (by omega), getD_set_of_ne (by omega), getD_set_of_ne (by omega),
          getD_set_of_ne (by omega)]
        obtain ⟨hbelow, habove⟩ := hpairs q
        exact ⟨fun h => hbelow (by omega), fun h => habove (by omega)⟩
  exact ((hrun _ le_rfl).2 q).1 hq

theorem length_wipeLoop (data : List Nat) (m1 m2 : Nat) :
    (wipeLoop data m1 m2).length = data.length := by
  unfold wipeLoop
  generalize hn : data.length / 2 = n
  clear hn
  induction n generalizing data with
  | zero => rfl
  | succ n ih =>
    rw [List.range_succ, List.foldl_append, List.foldl_cons, List.foldl_nil, wipePair]
    simp [ih]

theorem tagAt_wipeLoop (data : List Nat) {g : Nat} (hg1 : 1 ≤ g) (hg : g < 4) {p : Nat × Nat}
    (hq : p.1 < data.length / 2) (hb : p.2 < 64) :
    tagAt (wipeLoop data (negMask (g &&& 1)) (negMask (g >>> 1))) p = wipe (tagAt data) g p := by
  obtain ⟨hlow, hhigh⟩ := wipeLoop_getD data (negMask (g &&& 1)) (negMask (g >>> 1)) hq
  simp only [tagAt, wipe, hlow, hhigh]
  exact wipe_tag _ _ g p.2 hg1 hg hb

@[simp] theorem length_setTag (f : RollingBloomFilter) (q bit : Nat) :
    (f.setTag q bit).data.length = f.data.length := by
  simp [setTag]

/-- One round of the hashing loop gives position `(q, bit)` the tag
`nGeneration` and leaves every other tag as it was. -/
theorem tagAt_setTag {f : RollingBloomFilter} {q bit : Nat} (hq : 2 * q + 1 < f.data.length)
    (hbit : bit < 64) (hg : f.nGeneration < 4) {p : Nat × Nat} (hp : p.2 < 64) :
    tagAt (f.setTag q bit).data p = if p = (q, bit) then f.nGeneration else tagAt f.data p := by
  have hlow : f.nGeneration &&& 1 ≤ 1 := Nat.and_le_right
  have hhigh : f.nGeneration >>> 1 ≤ 1 := by
    rw [Nat.shiftRight_eq_div_pow]
    omega
  obtain ⟨i, b⟩ := p
  simp only at hp
  by_cases hi : i = q
  · subst hi
    simp only [setTag, tagAt]
    rw [getD_set_of_ne (by omega), getD_set_self (by omega), getD_set_self (by simp; omega),
      getD_set_of_ne (by omega), testBit_setBit _ _ _ _ hlow hbit hp,
      testBit_setBit _ _ _ _ hhigh hbit hp]
    by_cases hb : b = bit
    · subst hb
      rw [if_pos rfl, if_pos rfl, if_pos rfl]
      exact tag_of_generation hg
    · rw [if_neg hb, if_neg hb, if_neg (by simp [hb])]
  · have hne : (i, b) ≠ (q, bit) := fun h => hi (Prod.mk.inj h).1
    simp only [setTag, tagAt, if_neg hne]
    rw [getD_set_of_ne (by omega), getD_set_of_ne (by omega), getD_set_of_ne (by omega),
      getD_set_of_ne (by omega)]

end loops

section insert

@[simp] theorem nextGeneration_nEntriesThisGeneration (f : RollingBloomFilter) :
    f.nextGeneration.nEntriesThisGeneration = 0 := rfl

theorem nextGeneration_nGeneration (f : RollingBloomFilter) :
    f.nextGeneration.nGeneration = if f.nGeneration + 1 = 4 then 1 else f.nGeneration + 1 := rfl

theorem nextGeneration_data (f : RollingBloomFilter) :
    f.nextGeneration.data =
      wipeLoop f.data (negMask (f.nextGeneration.nGeneration &&& 1))
        (negMask (f.nextGeneration.nGeneration >>> 1)) := rfl

theorem position_eq {size : Nat} (hsize : 0 < size) (h : Nat) :
    position size h = some ((h >>> 6) % size / 2, h &&& 0x3F) :=
  if_neg (by omega)

/-- The pair a hash selects lies inside `data`, whose size is even. -/
theorem pair_lt {size : Nat} (hsize : 0 < size) (heven : size % 2 = 0) (x : Nat) :
    2 * (x % size / 2) + 1 < size := by
  have := Nat.mod_lt x hsize
  omega

theorem bit_lt (h : Nat) : h &&& 0x3F < 64 :=
  Nat.lt_of_le_of_lt Nat.and_le_right (by decide)

theorem keyPositions_succ (nHashFuncs nTweak size : Nat) (vKey : List UInt8) :
    keyPositions murmurHash3 (nHashFuncs + 1) nTweak size vKey =
      keyPositions murmurHash3 nHashFuncs nTweak size vKey ++
        [((rollingBloomHash murmurHash3 nHashFuncs nTweak vKey >>> 6) % size / 2,
          rollingBloomHash murmurHash3 nHashFuncs nTweak vKey &&& 0x3F)] := by
  simp [keyPositions, List.range_succ]

/-- The hashing loop of `insert`: after `k` rounds the positions of the first
`k` hashes hold the tag `nGeneration`, and every other tag is as it was. -/
theorem foldlM_setTag (f : RollingBloomFilter) (vKey : List UInt8) (hsize : 0 < f.data.length)
    (heven : f.data.length % 2 = 0) (hg : f.nGeneration < 4) (k : Nat) :
    ∃ D, (List.range k).foldlM
        (fun f n => (position f.data.length (rollingBloomHash murmurHash3 n f.nTweak vKey)).map
          fun p => f.setTag p.1 p.2) f = some { f with data := D } ∧
      D.length = f.data.length ∧
      ∀ p : Nat × Nat, p.2 < 64 →
        tagAt D p = mark (tagAt f.data) (keyPositions murmurHash3 k f.nTweak f.data.length vKey)
          f.nGeneration p := by
  induction k with
  | zero =>
    refine ⟨f.data, rfl, rfl, fun p _ => ?_⟩
    simp [keyPositions, mark_nil]
  | succ k ih =>
    obtain ⟨D, hrun, hlen, htags⟩ := ih
    let h := rollingBloomHash murmurHash3 k f.nTweak vKey
    let g : RollingBloomFilter := { f with data := D }
    have hpair : 2 * ((h >>> 6) % f.data.length / 2) + 1 < g.data.length := by
      simpa [g, hlen] using pair_lt hsize heven (h >>> 6)
    refine ⟨(g.setTag ((h >>> 6) % f.data.length / 2) (h &&& 0x3F)).data, ?_, ?_, ?_⟩
    · rw [List.range_succ, List.foldlM_append, hrun]
      simp only [List.foldlM_cons, List.foldlM_nil, hlen, position_eq hsize, Option.map_some,
        Option.bind_eq_bind, Option.bind_some]
      rfl
    · simp [g, hlen]
    · intro p hp
      rw [tagAt_setTag hpair (bit_lt h) hg hp, htags p hp,
        keyPositions_succ]
      exact (mark_append_singleton _ _ _ _ p).symm

theorem checkGeneration_nEntriesPerGeneration (f : RollingBloomFilter) :
    f.checkGeneration.nEntriesPerGeneration = f.nEntriesPerGeneration := by
  unfold checkGeneration
  split <;> rfl

theorem checkGeneration_nTweak (f : RollingBloomFilter) : f.checkGeneration.nTweak = f.nTweak := by
  unfold checkGeneration
  split <;> rfl

theorem checkGeneration_nHashFuncs (f : RollingBloomFilter) :
    f.checkGeneration.nHashFuncs = f.nHashFuncs := by
  unfold checkGeneration
  split <;> rfl

theorem length_checkGeneration (f : RollingBloomFilter) :
    f.checkGeneration.data.length = f.data.length := by
  unfold checkGeneration
  split
  · exact length_wipeLoop _ _ _
  · rfl

theorem checkGeneration_nGeneration_lt {f : RollingBloomFilter} (hg : f.nGeneration < 4) :
    f.checkGeneration.nGeneration < 4 := by
  unfold checkGeneration nextGeneration
  split
  · dsimp only
    split <;> omega
  · exact hg

/-- `insert`: the generation check, the counter, then the hashing loop, which
tags the key's positions with the generation number. -/
theorem insert_spec (f : RollingBloomFilter) (vKey : List UInt8) (hsize : 0 < f.data.length)
    (heven : f.data.length % 2 = 0) (hg : f.nGeneration < 4) :
    ∃ D, insert murmurHash3 f vKey = some { f.checkGeneration with
        nEntriesThisGeneration := f.checkGeneration.nEntriesThisGeneration + 1
        data := D } ∧
      D.length = f.data.length ∧
      ∀ p : Nat × Nat, p.2 < 64 →
        tagAt D p = mark (tagAt f.checkGeneration.data)
          (keyPositions murmurHash3 f.nHashFuncs f.nTweak f.data.length vKey)
          f.checkGeneration.nGeneration p := by
  let g : RollingBloomFilter := { f.checkGeneration with
    nEntriesThisGeneration := f.checkGeneration.nEntriesThisGeneration + 1 }
  have hlen : g.data.length = f.data.length := length_checkGeneration f
  obtain ⟨D, hrun, hDlen, htags⟩ := foldlM_setTag murmurHash3 g vKey (by omega) (by omega)
    (checkGeneration_nGeneration_lt hg) g.nHashFuncs
  refine ⟨D, hrun, by omega, fun p hp => ?_⟩
  rw [htags p hp, hlen]
  simp only [g, checkGeneration_nHashFuncs, checkGeneration_nTweak]

end insert

section tracks

/-- What a filter holds after the inserts `keys` since its last reset: the
counter and the generation number that `RotatingTags` gives after as many
inserts, and at every position the tag of `RotatingTags.runTags` for the
positions of the keys. -/
structure Tracks (E size : Nat) (f : RollingBloomFilter) (keys : List (List UInt8)) : Prop where
  perGeneration : f.nEntriesPerGeneration = E
  length : f.data.length = size
  entries : f.nEntriesThisGeneration = genCount E keys.length
  generation : f.nGeneration = genTag ((keys.length - 1) / E)
  tags : ∀ p : Nat × Nat, p.1 < size / 2 → p.2 < 64 →
    tagAt f.data p = runTags E (keys.map (keyPositions murmurHash3 f.nHashFuncs f.nTweak size)) p

/-- A reset filter holds no key. -/
theorem tracks_reset (f : RollingBloomFilter) (nTweak : Nat) :
    Tracks murmurHash3 f.nEntriesPerGeneration f.data.length (f.reset nTweak) [] where
  perGeneration := rfl
  length := List.length_map _
  entries := rfl
  generation := by simp [reset, genTag]
  tags := by
    intro p _ _
    simp [reset, tagAt, List.getD_eq_getElem?_getD]

variable {E size : Nat} {f : RollingBloomFilter} {keys : List (List UInt8)}

/-- The generation check of `insert` does what `RotatingTags.insertAt` does
before it marks: a full counter starts the next generation and wipes the
tags of the generation three back. -/
theorem Tracks.checkGeneration (hE : 0 < E) (ht : Tracks murmurHash3 E size f keys) :
    f.checkGeneration.nEntriesThisGeneration + 1 = genCount E (keys.length + 1) ∧
      f.checkGeneration.nGeneration = genTag (keys.length / E) ∧
      ∀ p : Nat × Nat, p.1 < size / 2 → p.2 < 64 →
        tagAt f.checkGeneration.data p =
          (if 0 < keys.length ∧ keys.length % E = 0 then
            wipe (runTags E (keys.map (keyPositions murmurHash3 f.nHashFuncs f.nTweak size)))
              (genTag (keys.length / E))
          else runTags E (keys.map (keyPositions murmurHash3 f.nHashFuncs f.nTweak size))) p := by
  by_cases hfull : f.nEntriesThisGeneration = f.nEntriesPerGeneration
  · have hcount : genCount E keys.length = E := by
      rw [← ht.entries, hfull, ht.perGeneration]
    obtain ⟨hpos, hmod⟩ := (genCount_eq_iff hE).mp hcount
    have hnext : f.nextGeneration.nGeneration = genTag (keys.length / E) := by
      rw [nextGeneration_nGeneration, ht.generation, ← pred_div_succ hE hpos hmod, genTag_succ]
    rw [RollingBloomFilter.checkGeneration, if_pos hfull]
    refine ⟨by rw [nextGeneration_nEntriesThisGeneration, genCount_succ, hmod], hnext, fun p hq hb => ?_⟩
    rw [if_pos ⟨hpos, hmod⟩, nextGeneration_data, hnext,
      tagAt_wipeLoop f.data (genTag_ne_zero _).bot_lt (genTag_lt _) (by rw [ht.length]; exact hq) hb]
    simp only [wipe, ht.tags p hq hb]
  · have hcount : genCount E keys.length ≠ E := by
      rw [← ht.entries, ← ht.perGeneration]
      exact hfull
    have hnowipe : ¬(0 < keys.length ∧ keys.length % E = 0) := fun h =>
      hcount ((genCount_eq_iff hE).mpr h)
    rw [RollingBloomFilter.checkGeneration, if_neg hfull, if_neg hnowipe]
    refine ⟨by rw [ht.entries, genCount_succ, genCount_of_ne hE hcount], ?_, ht.tags⟩
    rw [ht.generation]
    rcases Nat.eq_zero_or_pos keys.length with h0 | hpos
    · simp [h0]
    · rw [pred_div_of_mod_ne hpos (fun h => hnowipe ⟨hpos, h⟩)]

/-- One insert keeps `Tracks`: the filter refines the abstract store. -/
theorem Tracks.insert (hE : 0 < E) (hsize : 0 < size) (heven : size % 2 = 0)
    (ht : Tracks murmurHash3 E size f keys) (vKey : List UInt8) :
    ∃ f', insert murmurHash3 f vKey = some f' ∧ Tracks murmurHash3 E size f' (keys ++ [vKey]) := by
  obtain ⟨D, hins, hlen, htags⟩ :=
    insert_spec murmurHash3 f vKey (by rw [ht.length]; exact hsize) (by rw [ht.length]; exact heven)
      (by rw [ht.generation]; exact genTag_lt _)
  obtain ⟨hcount, hgen, hwiped⟩ := ht.checkGeneration murmurHash3 hE
  refine ⟨_, hins, ⟨?_, ?_, ?_, ?_, ?_⟩⟩
  · rw [checkGeneration_nEntriesPerGeneration, ht.perGeneration]
  · rw [hlen, ht.length]
  · simpa using hcount
  · simpa using hgen
  · intro p hq hb
    simp only [checkGeneration_nHashFuncs, checkGeneration_nTweak]
    rw [htags p hb, ht.length, List.map_append, List.map_singleton, runTags_append_singleton,
      List.length_map, RotatingTags.insertAt, hgen]
    exact mark_congr (hwiped p hq hb) _ _

/-- Any run of inserts keeps `Tracks`. -/
theorem Tracks.insertAll (hE : 0 < E) (hsize : 0 < size) (heven : size % 2 = 0)
    (ht : Tracks murmurHash3 E size f keys) (more : List (List UInt8)) :
    ∃ f', insertAll murmurHash3 f more = some f' ∧ Tracks murmurHash3 E size f' (keys ++ more) := by
  induction more generalizing f keys with
  | nil => exact ⟨f, rfl, by simpa using ht⟩
  | cons vKey more ih =>
    obtain ⟨f₁, hins, ht₁⟩ := ht.insert murmurHash3 hE hsize heven vKey
    obtain ⟨f', hrun, ht'⟩ := ih ht₁
    refine ⟨f', ?_, by simpa using ht'⟩
    simp only [insertAll, List.foldlM_cons, hins, Option.bind_eq_bind, Option.bind_some]
    exact hrun

theorem allM_eq_some_true {α : Type} {g : α → Option Bool} :
    ∀ {l : List α}, (∀ a ∈ l, g a = some true) → l.allM g = some true
  | [], _ => rfl
  | a :: l, h => by
    rw [List.allM_cons, h a List.mem_cons_self]
    exact allM_eq_some_true fun b hb => h b (List.mem_cons_of_mem a hb)

/-- Every key of the current generation and the two before it is
contained. -/
theorem Tracks.contains (hE : 0 < E) (hsize : 0 < size) (heven : size % 2 = 0)
    (ht : Tracks murmurHash3 E size f keys) {k : Nat} (hk : k < keys.length)
    (hwin : (keys.length - 1) / E ≤ k / E + 2) : contains murmurHash3 f keys[k] = some true := by
  apply allM_eq_some_true
  intro n hn
  let h := rollingBloomHash murmurHash3 n f.nTweak keys[k]
  have hpair := pair_lt hsize heven (h >>> 6)
  have hk' : k < (keys.map (keyPositions murmurHash3 f.nHashFuncs f.nTweak size)).length := by
    simpa using hk
  have hmem : ((h >>> 6) % size / 2, h &&& 0x3F) ∈
      (keys.map (keyPositions murmurHash3 f.nHashFuncs f.nTweak size))[k] := by
    rw [List.getElem_map]
    exact List.mem_map_of_mem hn
  have hset := runTags_ne_zero hE _ hk' (by simpa using hwin) hmem
  rw [← ht.tags _ (by omega) (bit_lt h)] at hset
  rw [ht.length, position_eq hsize, Option.map_some]
  exact congrArg some (decide_eq_true ((containsBit_iff _ _ _).mpr hset))

end tracks

section runs

/-- The filters that inserts and resets reach from `filter`. -/
inductive Reachable (filter : RollingBloomFilter) : RollingBloomFilter → Prop
  | start : Reachable filter filter
  | insert {f f' : RollingBloomFilter} (vKey : List UInt8) :
      Reachable filter f → RollingBloomFilter.insert murmurHash3 f vKey = some f' → Reachable filter f'
  | reset {f : RollingBloomFilter} (nTweak : Nat) :
      Reachable filter f → Reachable filter (f.reset nTweak)

/-- Inserts and resets keep the generation size and the words of a filter. -/
theorem reachable_shape {filter f : RollingBloomFilter} (hsize : 0 < filter.data.length)
    (heven : filter.data.length % 2 = 0) (hg : filter.nGeneration < 4)
    (hr : Reachable murmurHash3 filter f) :
    f.nEntriesPerGeneration = filter.nEntriesPerGeneration ∧ f.data.length = filter.data.length ∧
      f.nGeneration < 4 := by
  induction hr with
  | start => exact ⟨rfl, rfl, hg⟩
  | insert vKey _ hins ih =>
    obtain ⟨hE, hlen, hgen⟩ := ih
    obtain ⟨D, hins', hDlen, -⟩ := insert_spec murmurHash3 _ vKey (by omega) (by omega) hgen
    rw [hins] at hins'
    cases hins'
    exact ⟨(checkGeneration_nEntriesPerGeneration _).trans hE, hDlen.trans hlen,
      checkGeneration_nGeneration_lt hgen⟩
  | reset nTweak _ ih =>
    obtain ⟨hE, hlen, -⟩ := ih
    exact ⟨hE, (List.length_map _).trans hlen, (by decide : 1 < 4)⟩

/-- The constructor ends with a `reset`; the generation size is
`(nElements + 1) / 2` in 32 bits, the words come in pairs, and a generation
size of 0 allocates no words. -/
theorem create_eq_reset {nElements : UInt32} {hashFuncsEstimate : Int} {logFactor : ℚ}
    {nTweak : Nat} {filter : RollingBloomFilter}
    (h : create nElements hashFuncsEstimate logFactor nTweak = some filter) :
    ∃ g : RollingBloomFilter, filter = g.reset nTweak ∧ g.nEntriesPerGeneration = (nElements.toNat + 1) % 2 ^ 32 / 2 ∧
      g.data.length % 2 = 0 ∧ (g.nEntriesPerGeneration = 0 → g.data = []) := by
  dsimp only [create] at h
  split at h
  · split at h
    · refine ⟨_, (Option.some.inj h).symm, ?_, ?_, ?_⟩
      · simp [UInt32.toNat_div, UInt32.toNat_add]
      · simp only [List.length_replicate]
        omega
      · intro h0
        simp only at h0
        simp [h0]
    · cases h
  · cases h

/-- After any inserts since construction or since a later reset, every key of
the current generation and the two before it is contained, and so is every
one of the last `nElements` keys, provided the constructor allocated words. -/
theorem rollingBloom_keeps_recent {nElements : UInt32} {hashFuncsEstimate : Int} {logFactor : ℚ}
    {nTweak : Nat} {filter start : RollingBloomFilter}
    (hcreate : create nElements hashFuncsEstimate logFactor nTweak = some filter)
    (hsize : 0 < filter.data.length)
    (hstart : start = filter ∨ ∃ f t, Reachable murmurHash3 filter f ∧ start = f.reset t)
    (keys : List (List UInt8)) :
    ∃ f', insertAll murmurHash3 start keys = some f' ∧
      (∀ x ∈ keys.drop (keys.length - nElements.toNat), contains murmurHash3 f' x = some true) ∧
      ∀ k (hk : k < keys.length),
        (keys.length - 1) / filter.nEntriesPerGeneration ≤ k / filter.nEntriesPerGeneration + 2 →
          contains murmurHash3 f' keys[k] = some true := by
  obtain ⟨g, rfl, hE, heven, hempty⟩ := create_eq_reset hcreate
  have hlen : (g.reset nTweak).data.length = g.data.length := List.length_map _
  have hpos : 0 < g.nEntriesPerGeneration := by
    rcases Nat.eq_zero_or_pos g.nEntriesPerGeneration with h0 | h0
    · rw [hlen, hempty h0] at hsize
      exact absurd hsize (Nat.lt_irrefl 0)
    · exact h0
  have hcover : nElements.toNat ≤ 2 * g.nEntriesPerGeneration := by
    have := nElements.toNat_lt
    omega
  obtain ⟨f, t, hfE, hflen, rfl⟩ : ∃ (f : RollingBloomFilter) (t : Nat), f.nEntriesPerGeneration = g.nEntriesPerGeneration ∧
      f.data.length = g.data.length ∧ start = f.reset t := by
    rcases hstart with rfl | ⟨f, t, hr, rfl⟩
    · exact ⟨g, nTweak, rfl, rfl, rfl⟩
    · obtain ⟨hfE, hflen, -⟩ :=
        reachable_shape murmurHash3 hsize (by rw [hlen]; exact heven) (by decide : 1 < 4) hr
      exact ⟨f, t, hfE, hflen.trans hlen, rfl⟩
  have hwords : 0 < g.data.length := by
    rw [← hlen]
    exact hsize
  have ht := tracks_reset murmurHash3 f t
  rw [hfE, hflen] at ht
  obtain ⟨f', hrun, ht'⟩ := ht.insertAll murmurHash3 hpos hwords heven keys
  rw [List.nil_append] at ht'
  refine ⟨f', hrun, ?_, fun k hk hwin => ht'.contains murmurHash3 hpos hwords heven hk hwin⟩
  intro x hx
  obtain ⟨i, hi, rfl⟩ := List.mem_iff_getElem.mp hx
  rw [List.length_drop] at hi
  rw [List.getElem_drop]
  apply ht'.contains murmurHash3 hpos hwords heven
  exact window_of_recent hpos (by omega)

theorem rollingBloom_keeps_recent_tenElements :
    ∃ filter, create 10 3 1 0 = some filter ∧ 0 < filter.data.length ∧
      ∃ f', insertAll (fun seed _ => seed) filter [[1], [2], [3]] = some f' ∧
        ∀ x ∈ [[1], [2], [3]], contains (fun seed _ => seed) f' x = some true := by
  have hE : (((10 : UInt32) + 1) / 2).toNat = 5 := by decide
  have hbits : ⌈((max 1 (min (3 : Int) 50)).toNat * ((5 * 3 : Nat) : ℚ)) / 1⌉₊ = 45 := by
    rw [div_one, show (max 1 (min (3 : Int) 50)).toNat = 3 from rfl]
    norm_num
  have hcreate : create 10 3 1 0 = some
      { nEntriesPerGeneration := 5
        nEntriesThisGeneration := 0
        nGeneration := 1
        data := [0, 0]
        nTweak := 0
        nHashFuncs := 3 } := by
    simp only [create, hE, hbits]
    rfl
  obtain ⟨f', hrun, hrecent, -⟩ :=
    rollingBloom_keeps_recent (fun seed _ => seed) hcreate (by decide) (Or.inl rfl) [[1], [2], [3]]
  exact ⟨_, hcreate, by decide, f', hrun, hrecent⟩

/-- For `nElements = 2 ^ 32 - 1` the generation size `(nElements + 1) / 2`
wraps to 0, the constructor allocates no words, and every `insert` then
takes a position modulo `data.size() = 0`. -/
theorem rollingBloom_empty_at_max :
    ∃ filter, create 4294967295 1 1 0 = some filter ∧ filter.data = [] ∧
      ∀ vKey, insert (fun seed _ => seed) filter vKey = none := by
  refine ⟨{ nEntriesPerGeneration := 0
            nEntriesThisGeneration := 0
            nGeneration := 1
            data := []
            nTweak := 0
            nHashFuncs := 1 }, ?_, rfl, ?_⟩
  · simp [create, reset]
  · intro vKey
    simp [insert, List.range_succ_eq_map, nextGeneration, wipeLoop, position]

end runs

end RollingBloomFilter

end Membercoin
