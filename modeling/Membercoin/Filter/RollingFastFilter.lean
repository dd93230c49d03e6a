import Membercoin.Filter.FastFilter
import Membercoin.Lib.OptionLoop

/-!
# The fast filter and the rolling fast filter (fastfilter.h)

`CFastFilter<FILTER_SIZE, NUM_HASH_FNS>` reads the hash as eight 32-bit
words. Round `i` of its loops takes word `i` and its byte reversal, and sets
or tests the two bits they name modulo `FILTER_SIZE`. `CRollingFastFilter`
clears `eraseAmt` bytes after a moving position (`roll`) before each insert.

What the C++ leaves undefined is `none`: a word past the hash and an index
outside `vData`. A `FILTER_SIZE` of 2 or 4 passes the `static_assert`s but
gives `FILTER_BYTES = 0`, so every index is outside.

With `FILTER_SIZE` a power of two of at least 8 bits (`Params`), the loops
are defined. `insert` and `checkAndSet` set the bits that the hash names and
no other, and `contains` tests exactly those (`insert_spec`,
`checkAndSet_spec`, `contains_spec`). So every hash inserted since
construction or the last reset stays contained (`runCalls_contains`). A
rolling filter rolls before it inserts, so the hash inserted last is
contained (`CRollingFastFilter.insert_contains`).
-/

namespace Membercoin

open ByteCodec
open CVariableFastFilter (setBit bitUnset bitSet setBit_eq bitUnset_eq eq_of_bitSet decide_exists_clear)

/-- The field of `CFastFilter`. -/
structure CFastFilter where
  vData : List UInt8
  deriving Repr, DecidableEq

namespace CFastFilter

section model

variable (filterSize numHashFns : Nat)

/-- `FILTER_BYTES`. -/
def filterBytes : Nat := filterSize / 8

/-- The constructor: `FILTER_BYTES` zero bytes. -/
def init : CFastFilter := ⟨List.replicate (filterBytes filterSize) 0⟩

/-- `*pos` in round `i`: word `i` of the hash, little-endian; `none` past the
32 bytes. -/
def hashWord (hash : Uint256) (i : Nat) : Option UInt32 :=
  if i < 8 then some (leValue ((hash.data.drop (4 * i)).take 4)).toUInt32 else none

/-- `__builtin_bswap32`. -/
def bswap32 (v : UInt32) : UInt32 :=
  (v <<< 24) ||| ((v <<< 8) &&& (0x00ff0000 : UInt32)) ||| ((v >>> 8) &&& (0x0000ff00 : UInt32)) ||| (v >>> 24)

/-- `val & (FILTER_SIZE - 1)`. -/
def bitIndex (val : UInt32) : UInt32 := val &&& (filterSize - 1).toUInt32

/-- `insert`. -/
def insert (f : CFastFilter) (hash : Uint256) : Option CFastFilter := do
  let vData ← (List.range (numHashFns / 2)).foldlM (fun vData i => do
    let val ← hashWord hash i
    let vData ← setBit vData (bitIndex filterSize val)
    setBit vData (bitIndex filterSize (bswap32 val))) f.vData
  pure ⟨vData⟩

/-- `contains`. -/
def contains (f : CFastFilter) (hash : Uint256) : Option Bool := do
  let unset ← (List.range (numHashFns / 2)).foldlM (fun unset i => do
    let val ← hashWord hash i
    let u ← bitUnset f.vData (bitIndex filterSize val)
    let u2 ← bitUnset f.vData (bitIndex filterSize (bswap32 val))
    pure (unset || u || u2)) false
  pure !unset

/-- `checkAndSet`: both bits of a round are tested before either is set. -/
def checkAndSet (f : CFastFilter) (hash : Uint256) : Option (Bool × CFastFilter) := do
  let r ← (List.range (numHashFns / 2)).foldlM (fun (r : Bool × List UInt8) i => do
    let val ← hashWord hash i
    let u ← bitUnset r.2 (bitIndex filterSize val)
    let u2 ← bitUnset r.2 (bitIndex filterSize (bswap32 val))
    let vData ← setBit r.2 (bitIndex filterSize val)
    let vData ← setBit vData (bitIndex filterSize (bswap32 val))
    pure (r.1 || u || u2, vData)) (false, f.vData)
  pure (r.1, ⟨r.2⟩)

/-- `reset`: `memset(&vData[0], 0, FILTER_BYTES)`, defined only inside a
non-empty `vData`. -/
def reset (f : CFastFilter) : Option CFastFilter :=
  if f.vData ≠ [] ∧ filterBytes filterSize ≤ f.vData.length then
    some ⟨List.replicate (filterBytes filterSize) 0 ++ f.vData.drop (filterBytes filterSize)⟩
  else none

/-- A call a client makes between resets. -/
inductive Call
  | insert (hash : Uint256)
  | checkAndSet (hash : Uint256)

/-- The hash a call passes. -/
def Call.hash : Call → Uint256
  | .insert hash => hash
  | .checkAndSet hash => hash

/-- The filter after a call. -/
def applyCall (f : CFastFilter) : Call → Option CFastFilter
  | .insert hash => insert filterSize numHashFns f hash
  | .checkAndSet hash => (checkAndSet filterSize numHashFns f hash).map Prod.snd

/-- The filter after each call in turn. -/
def runCalls (f : CFastFilter) (calls : List Call) : Option CFastFilter :=
  calls.foldlM (applyCall filterSize numHashFns) f

/-- The bits round `i` names: the word's and its byte reversal's. -/
def roundBits (hash : Uint256) (i : Nat) : List Nat :=
  ((hashWord hash i).map fun val =>
    [(bitIndex filterSize val).toNat, (bitIndex filterSize (bswap32 val)).toNat]).getD []

/-- The bits the first `k` rounds name. -/
def hashBits (hash : Uint256) (k : Nat) : List Nat := (List.range k).flatMap (roundBits filterSize hash)

/-- The template arguments the `static_assert`s admit, with at least one
byte: `FILTER_SIZE` a power of two of at least 8 bits, in `unsigned int`,
and at most 16 hash functions. -/
structure Params : Prop where
  pow2 : ∃ k, 3 ≤ k ∧ k < 32 ∧ filterSize = 2 ^ k
  numHashFns_le : numHashFns ≤ 16

end model

/-! ## The rounds -/

section rounds

variable {filterSize numHashFns : Nat}

theorem hashWord_of_lt (hash : Uint256) {i : Nat} (hi : i < 8) :
    hashWord hash i = some (leValue ((hash.data.drop (4 * i)).take 4)).toUInt32 := if_pos hi

theorem toNat_bitIndex {k : Nat} (hk : k < 32) (val : UInt32) :
    (bitIndex (2 ^ k) val).toNat = val.toNat % 2 ^ k := by
  have hlt : 2 ^ k - 1 < 2 ^ 32 := by
    have := Nat.pow_lt_pow_right (by decide : 1 < 2) hk
    omega
  rw [bitIndex, UInt32.toNat_and, Nat.toUInt32, UInt32.toNat_ofNat', Nat.mod_eq_of_lt hlt,
    Nat.and_two_pow_sub_one_eq_mod]

/-- Every index names a bit of the `FILTER_BYTES` bytes. -/
theorem bitIndex_div_lt (hp : Params filterSize numHashFns) (val : UInt32) :
    (bitIndex filterSize val).toNat / 8 < filterBytes filterSize := by
  obtain ⟨k, hk3, hk, rfl⟩ := hp.pow2
  have hsplit : 2 ^ k = 2 ^ (k - 3) * 2 ^ 3 := by rw [← Nat.pow_add, Nat.sub_add_cancel hk3]
  obtain ⟨m, hm⟩ : ∃ m, 2 ^ k = 8 * m := ⟨2 ^ (k - 3), by rw [hsplit, Nat.mul_comm]; rfl⟩
  have hmod := Nat.mod_lt val.toNat (Nat.two_pow_pos k)
  rw [toNat_bitIndex hk, filterBytes]
  rw [hm] at hmod ⊢
  omega

theorem filterBytes_pos (hp : Params filterSize numHashFns) : 0 < filterBytes filterSize :=
  Nat.lt_of_le_of_lt (Nat.zero_le _) (bitIndex_div_lt hp 0)

/-- `FILTER_BYTES` fits in `unsigned int`. -/
theorem filterBytes_lt (hp : Params filterSize numHashFns) : filterBytes filterSize < 2 ^ 32 := by
  obtain ⟨k, -, hk, rfl⟩ := hp.pow2
  have := Nat.pow_lt_pow_right (by decide : 1 < 2) hk
  exact lt_of_le_of_lt (Nat.div_le_self _ _) this

theorem roundBits_of_lt (filterSize : Nat) (hash : Uint256) {i : Nat} (hi : i < 8) :
    ∃ val, hashWord hash i = some val ∧
      roundBits filterSize hash i = [(bitIndex filterSize val).toNat, (bitIndex filterSize (bswap32 val)).toNat] :=
  ⟨_, hashWord_of_lt hash hi, by rw [roundBits, hashWord_of_lt hash hi]; rfl⟩

theorem hashBits_succ (hash : Uint256) (k : Nat) :
    hashBits filterSize hash (k + 1) = hashBits filterSize hash k ++ roundBits filterSize hash k := by
  simp [hashBits, List.range_succ, List.flatMap_append]

/-- Setting the two bits of a round inside `vData` adds exactly them. -/
theorem setBit_pair {D : List UInt8} {a b : UInt32} (ha : a.toNat / 8 < D.length) (hb : b.toNat / 8 < D.length) :
    ∃ D', (setBit D a).bind (fun D => setBit D b) = some D' ∧ D'.length = D.length ∧
      ∀ n, bitSet D' n = (bitSet D n || decide (n ∈ [a.toNat, b.toNat])) := by
  obtain ⟨D₁, h₁, hlen₁, hbits₁⟩ := setBit_eq ha
  obtain ⟨D₂, h₂, hlen₂, hbits₂⟩ := setBit_eq (hlen₁ ▸ hb : b.toNat / 8 < D₁.length)
  refine ⟨D₂, by rw [h₁, Option.bind_some, h₂], hlen₂.trans hlen₁, fun n => ?_⟩
  rw [hbits₂, hbits₁]
  simp [Bool.or_assoc]

/-- A round of `checkAndSet` tests its two bits after the earlier rounds set
theirs: a bit of the round that an earlier round named reads set, and was
clear before the loop only if the answer so far says so already. -/
theorem checkRound_eq (b₀ : Nat → Bool) (H : List Nat) (a c : Nat) :
    (decide (∃ n ∈ H, b₀ n = false) || !(b₀ a || decide (a ∈ H)) || !(b₀ c || decide (c ∈ H))) =
      decide (∃ n ∈ H ++ [a, c], b₀ n = false) := by
  by_cases hH : ∃ n ∈ H, b₀ n = false
  · have hH' : ∃ n ∈ H ++ [a, c], b₀ n = false :=
      let ⟨n, hn, hb⟩ := hH
      ⟨n, List.mem_append_left _ hn, hb⟩
    simp only [decide_eq_true hH, decide_eq_true hH', Bool.true_or]
  · have hset : ∀ n ∈ H, b₀ n = true := fun n hn => by
      by_contra hb
      exact hH ⟨n, hn, by simpa using hb⟩
    have hiff : (∃ n ∈ H ++ [a, c], b₀ n = false) ↔ b₀ a = false ∨ b₀ c = false := by
      constructor
      · rintro ⟨n, hn, hb⟩
        rcases List.mem_append.mp hn with hn | hn
        · rw [hset n hn] at hb
          cases hb
        · rcases List.mem_pair.mp hn with rfl | rfl
          · exact Or.inl hb
          · exact Or.inr hb
      · rintro (hb | hb)
        · exact ⟨a, by simp, hb⟩
        · exact ⟨c, by simp, hb⟩
    simp only [decide_eq_false hH, Bool.false_or, hiff]
    cases hba : b₀ a <;> cases hbc : b₀ c <;> by_cases ha : a ∈ H <;> by_cases hc : c ∈ H <;>
      simp_all

variable (hp : Params filterSize numHashFns) (hash : Uint256)
include hp

/-- The first `k` rounds of `insert` set exactly the bits they name. -/
theorem foldlM_setBit {D₀ : List UInt8} (hlen : D₀.length = filterBytes filterSize) {k : Nat} (hk : k ≤ 8) :
    ∃ D, (List.range k).foldlM (fun vData i => do
        let val ← hashWord hash i
        let vData ← setBit vData (bitIndex filterSize val)
        setBit vData (bitIndex filterSize (bswap32 val))) D₀ = some D ∧ D.length = D₀.length ∧
      ∀ n, bitSet D n = (bitSet D₀ n || decide (n ∈ hashBits filterSize hash k)) := by
  refine OptionLoop.foldlM_range_exists _
    (fun j D => D.length = D₀.length ∧ ∀ n, bitSet D n = (bitSet D₀ n || decide (n ∈ hashBits filterSize hash j)))
    ⟨rfl, fun n => by simp [hashBits]⟩ ?_
  rintro j D hj ⟨hlenD, hbits⟩
  obtain ⟨val, hval, hround⟩ := roundBits_of_lt filterSize hash (show j < 8 by omega)
  obtain ⟨D', hset, hlen', hbits'⟩ := setBit_pair (D := D)
    (by rw [hlenD, hlen]; exact bitIndex_div_lt hp val) (by rw [hlenD, hlen]; exact bitIndex_div_lt hp (bswap32 val))
  refine ⟨D', by rw [hval]; simpa only [Option.bind_eq_bind, Option.bind_some] using hset, hlen'.trans hlenD,
    fun n => ?_⟩
  rw [hbits', hbits, hashBits_succ, hround]
  simp [Bool.or_assoc]

/-- The first `k` rounds of `contains` find a clear bit exactly when one of
the bits they name is clear. -/
theorem foldlM_bitUnset {D : List UInt8} (hlen : D.length = filterBytes filterSize) {k : Nat} (hk : k ≤ 8) :
    (List.range k).foldlM (fun unset i => do
        let val ← hashWord hash i
        let u ← bitUnset D (bitIndex filterSize val)
        let u2 ← bitUnset D (bitIndex filterSize (bswap32 val))
        pure (unset || u || u2)) false = some (decide (∃ n ∈ hashBits filterSize hash k, bitSet D n = false)) := by
  obtain ⟨r, hrun, hr⟩ := @OptionLoop.foldlM_range_exists _ (fun unset i => do
      let val ← hashWord hash i
      let u ← bitUnset D (bitIndex filterSize val)
      let u2 ← bitUnset D (bitIndex filterSize (bswap32 val))
      pure (unset || u || u2))
    (fun j u => u = decide (∃ n ∈ hashBits filterSize hash j, bitSet D n = false)) k false
    (by simp [hashBits]) (by
      rintro j u hj rfl
      obtain ⟨val, hval, hround⟩ := roundBits_of_lt filterSize hash (show j < 8 by omega)
      refine ⟨_, ?_, rfl⟩
      simp only [hval, Option.bind_eq_bind, Option.bind_some, bitUnset_eq (by rw [hlen]; exact bitIndex_div_lt hp val),
        bitUnset_eq (by rw [hlen]; exact bitIndex_div_lt hp (bswap32 val)), Option.pure_def, hashBits_succ, hround]
      simp [List.mem_append, or_and_right, exists_or, Bool.or_assoc])
  rw [hrun, hr]

/-- The first `k` rounds of `checkAndSet` find a clear bit as `contains`
does and set the bits as `insert` does. -/
theorem foldlM_checkAndSet {D₀ : List UInt8} (hlen : D₀.length = filterBytes filterSize) {k : Nat} (hk : k ≤ 8) :
    ∃ r, (List.range k).foldlM (fun (r : Bool × List UInt8) i => do
        let val ← hashWord hash i
        let u ← bitUnset r.2 (bitIndex filterSize val)
        let u2 ← bitUnset r.2 (bitIndex filterSize (bswap32 val))
        let vData ← setBit r.2 (bitIndex filterSize val)
        let vData ← setBit vData (bitIndex filterSize (bswap32 val))
        pure (r.1 || u || u2, vData)) (false, D₀) = some r ∧
      r.1 = decide (∃ n ∈ hashBits filterSize hash k, bitSet D₀ n = false) ∧
      r.2.length = D₀.length ∧ ∀ n, bitSet r.2 n = (bitSet D₀ n || decide (n ∈ hashBits filterSize hash k)) := by
  refine OptionLoop.foldlM_range_exists _
    (fun j (r : Bool × List UInt8) => r.1 = decide (∃ n ∈ hashBits filterSize hash j, bitSet D₀ n = false) ∧
      r.2.length = D₀.length ∧ ∀ n, bitSet r.2 n = (bitSet D₀ n || decide (n ∈ hashBits filterSize hash j)))
    (by simp [hashBits]) (by
      rintro j ⟨u₀, D⟩ hj ⟨hu₀, hlenD, hbits⟩
      dsimp only at hu₀ hlenD hbits
      obtain ⟨val, hval, hround⟩ := roundBits_of_lt filterSize hash (show j < 8 by omega)
      have ha : (bitIndex filterSize val).toNat / 8 < D.length := by rw [hlenD, hlen]; exact bitIndex_div_lt hp val
      have hc : (bitIndex filterSize (bswap32 val)).toNat / 8 < D.length := by
        rw [hlenD, hlen]; exact bitIndex_div_lt hp (bswap32 val)
      obtain ⟨D', hset, hlen', hbits'⟩ := setBit_pair ha hc
      refine ⟨(u₀ || !bitSet D (bitIndex filterSize val).toNat || !bitSet D (bitIndex filterSize (bswap32 val)).toNat,
        D'), ?_, ?_, hlen'.trans hlenD, fun n => ?_⟩
      · simp only [hval, Option.bind_eq_bind, Option.bind_some, bitUnset_eq ha, bitUnset_eq hc]
        rw [← Option.bind_assoc, hset, Option.bind_some]
        rfl
      · simp only [hu₀, hbits, hashBits_succ, hround]
        exact checkRound_eq _ _ _ _
      · rw [hbits', hbits, hashBits_succ, hround]
        simp [Bool.or_assoc])

end rounds

/-! ## The operations -/

section operations

variable {filterSize numHashFns : Nat} (hp : Params filterSize numHashFns) (hash : Uint256) {f : CFastFilter}
  (hlen : f.vData.length = filterBytes filterSize)
include hp hlen

/-- `insert` sets the bits that the hash names and no other. -/
theorem insert_spec :
    ∃ D, insert filterSize numHashFns f hash = some ⟨D⟩ ∧ D.length = f.vData.length ∧
      ∀ n, bitSet D n = (bitSet f.vData n || decide (n ∈ hashBits filterSize hash (numHashFns / 2))) := by
  obtain ⟨D, hrun, hlenD, hbits⟩ := foldlM_setBit hp hash hlen (k := numHashFns / 2) (by have := hp.numHashFns_le; omega)
  exact ⟨D, by rw [insert, hrun]; rfl, hlenD, hbits⟩

/-- `contains` holds exactly when every bit that the hash names is set. -/
theorem contains_spec :
    contains filterSize numHashFns f hash =
      some ((hashBits filterSize hash (numHashFns / 2)).all (bitSet f.vData)) := by
  rw [contains, foldlM_bitUnset hp hash hlen (by have := hp.numHashFns_le; omega), decide_exists_clear, List.all_eq]
  simp

/-- `checkAndSet` answers whether the hash was not contained, and inserts it. -/
theorem checkAndSet_spec :
    ∃ c g, contains filterSize numHashFns f hash = some c ∧ insert filterSize numHashFns f hash = some g ∧
      checkAndSet filterSize numHashFns f hash = some (!c, g) := by
  obtain ⟨⟨u, D⟩, hrun, hu, hlenD, hbits⟩ :=
    foldlM_checkAndSet hp hash hlen (k := numHashFns / 2) (by have := hp.numHashFns_le; omega)
  obtain ⟨D', hins, hlen', hbits'⟩ := insert_spec hp hash hlen
  have hD : D = D' := eq_of_bitSet (hlenD.trans hlen'.symm) fun n => by rw [hbits, hbits']
  refine ⟨_, _, contains_spec hp hash hlen, hins, ?_⟩
  rw [checkAndSet, hrun]
  dsimp only at hu
  rw [hu, hD, decide_exists_clear, List.all_eq]
  rfl

end operations

/-! ## Runs of calls -/

section runs

variable {filterSize numHashFns : Nat} (hp : Params filterSize numHashFns)
include hp

/-- A call sets the bits of its hash and no other. -/
theorem applyCall_spec (c : Call) {f : CFastFilter} (hlen : f.vData.length = filterBytes filterSize) :
    ∃ g, applyCall filterSize numHashFns f c = some g ∧ g.vData.length = f.vData.length ∧
      ∀ n, bitSet g.vData n = (bitSet f.vData n || decide (n ∈ hashBits filterSize c.hash (numHashFns / 2))) := by
  obtain ⟨D, hins, hlenD, hbits⟩ := insert_spec hp c.hash hlen
  cases c with
  | insert hash => exact ⟨⟨D⟩, hins, hlenD, hbits⟩
  | checkAndSet hash =>
    obtain ⟨b, g, -, hg, hcs⟩ := checkAndSet_spec hp hash hlen
    dsimp only [Call.hash] at hins
    rw [hins, Option.some.injEq] at hg
    subst hg
    exact ⟨⟨D⟩, by rw [applyCall, hcs]; rfl, hlenD, hbits⟩

/-- Any run of calls keeps the size, keeps every bit set, and sets the bits of
every hash passed. -/
theorem runCalls_spec (calls : List Call) :
    ∀ {f : CFastFilter}, f.vData.length = filterBytes filterSize → ∃ g, runCalls filterSize numHashFns f calls = some g ∧
      g.vData.length = filterBytes filterSize ∧ (∀ n, bitSet f.vData n = true → bitSet g.vData n = true) ∧
      ∀ c ∈ calls, ∀ n ∈ hashBits filterSize c.hash (numHashFns / 2), bitSet g.vData n = true := by
  induction calls with
  | nil => exact fun hlen => ⟨_, rfl, hlen, fun _ h => h, fun _ h => absurd h List.not_mem_nil⟩
  | cons c calls ih =>
    intro f hlen
    obtain ⟨f₁, happ, hlen₁, hbits₁⟩ := applyCall_spec hp c hlen
    obtain ⟨g, hrun, hlen', hmono, hcover⟩ := ih (hlen₁.trans hlen)
    refine ⟨g, ?_, hlen', fun n hn => hmono n (by simp [hbits₁, hn]), ?_⟩
    · rw [runCalls, List.foldlM_cons, happ]
      exact hrun
    · intro c' hc' n hn
      rcases List.mem_cons.mp hc' with rfl | hc'
      · exact hmono n (by simp [hbits₁, hn])
      · exact hcover c' hc' n hn

/-- Every hash passed to `insert` or `checkAndSet` since construction or the
last reset is contained. -/
theorem runCalls_contains (calls : List Call) {f : CFastFilter} (hlen : f.vData.length = filterBytes filterSize) :
    ∃ g, runCalls filterSize numHashFns f calls = some g ∧ g.vData.length = filterBytes filterSize ∧
      ∀ c ∈ calls, contains filterSize numHashFns g c.hash = some true := by
  obtain ⟨g, hrun, hlen', -, hcover⟩ := runCalls_spec hp calls hlen
  refine ⟨g, hrun, hlen', fun c hc => ?_⟩
  rw [contains_spec hp c.hash hlen']
  simpa using hcover c hc

/-- `reset` of a filter of `FILTER_BYTES` bytes is a new filter. -/
theorem reset_eq_init {f : CFastFilter} (hlen : f.vData.length = filterBytes filterSize) :
    reset filterSize f = some (init filterSize) := by
  have hne : f.vData ≠ [] := fun h => by
    have := filterBytes_pos hp
    rw [h] at hlen
    simp at hlen
    omega
  rw [reset, if_pos ⟨hne, hlen.ge⟩, List.drop_eq_nil_of_le hlen.le, List.append_nil]
  rfl

end runs

end CFastFilter

/-- The fields of `CRollingFastFilter`: the filter's bytes, where the last
roll stopped, and how many bytes a roll clears. -/
structure CRollingFastFilter extends CFastFilter where
  erase : Nat
  eraseAmt : Nat
  deriving Repr, DecidableEq

namespace CRollingFastFilter

open CFastFilter (filterBytes Params)

section model

variable (filterSize : Nat)

/-- `CFastFilter<FILTER_SIZE>::FILTER_BYTES - 1` in `unsigned int`. -/
def byteMask : Nat := (filterBytes filterSize + (2 ^ 32 - 1)) % 2 ^ 32

/-- The constructor: `erase = insecure_rand.rand32() % FILTER_BYTES`, a
remainder by zero when there are no bytes. -/
def init (rand32 eraseAmt : Nat) : Option CRollingFastFilter :=
  if filterBytes filterSize = 0 then none
  else some { vData := List.replicate (filterBytes filterSize) 0, erase := rand32 % filterBytes filterSize, eraseAmt }

/-- `roll`: advance `erase` by `eraseAmt` and clear `eraseAmt` bytes from
there, wrapping around. -/
def roll (f : CRollingFastFilter) : Option CRollingFastFilter := do
  let erase := (f.erase + f.eraseAmt) % 2 ^ 32 &&& byteMask filterSize
  let r ← (List.range f.eraseAmt).foldlM (fun (r : List UInt8 × Nat) _ =>
      if r.2 < r.1.length then some (r.1.set r.2 0, (r.2 + 1) % 2 ^ 32 &&& byteMask filterSize) else none)
    (f.vData, erase &&& byteMask filterSize)
  pure { f with vData := r.1, erase }

/-- `insert`: a roll, then `CFastFilter<FILTER_SIZE>::insert`, with its
default of sixteen hash functions. -/
def insert (f : CRollingFastFilter) (hash : Uint256) : Option CRollingFastFilter := do
  let f ← roll filterSize f
  let g ← CFastFilter.insert filterSize 16 f.toCFastFilter hash
  pure { f with toCFastFilter := g }

end model

-- the rolling filter inserts with `CFastFilter<FILTER_SIZE>`, with its sixteen hash functions
variable {filterSize : Nat} (hp : Params filterSize 16)
include hp

theorem byteMask_eq : byteMask filterSize = filterBytes filterSize - 1 := by
  have hpos := CFastFilter.filterBytes_pos hp
  have hlt := CFastFilter.filterBytes_lt hp
  rw [byteMask]
  omega

/-- A roll is defined on a filter of `FILTER_BYTES` bytes, keeps its size,
and keeps `eraseAmt`. -/
theorem roll_spec {f : CRollingFastFilter} (hlen : f.vData.length = filterBytes filterSize) :
    ∃ g, roll filterSize f = some g ∧ g.vData.length = filterBytes filterSize ∧ g.eraseAmt = f.eraseAmt := by
  have hmask : ∀ x, x &&& byteMask filterSize < filterBytes filterSize := fun x => by
    have := Nat.and_le_right (n := x) (m := byteMask filterSize)
    have hpos := CFastFilter.filterBytes_pos hp
    rw [byteMask_eq hp] at this ⊢
    omega
  obtain ⟨r, hrun, hlen', -⟩ := @OptionLoop.foldlM_range_exists _ (fun (r : List UInt8 × Nat) _ =>
      if r.2 < r.1.length then some (r.1.set r.2 0, (r.2 + 1) % 2 ^ 32 &&& byteMask filterSize) else none)
    (fun _ (r : List UInt8 × Nat) => r.1.length = filterBytes filterSize ∧ r.2 < filterBytes filterSize)
    f.eraseAmt (f.vData, (f.erase + f.eraseAmt) % 2 ^ 32 &&& byteMask filterSize &&& byteMask filterSize)
    ⟨hlen, hmask _⟩ (by
      rintro j ⟨D, loc⟩ - ⟨hlenD, hloc⟩
      dsimp only at hlenD hloc
      exact ⟨_, by rw [if_pos (by rw [hlenD]; exact hloc)], by rw [List.length_set]; exact hlenD, hmask _⟩)
  exact ⟨{ f with vData := r.1, erase := (f.erase + f.eraseAmt) % 2 ^ 32 &&& byteMask filterSize },
    by rw [roll, hrun]; rfl, hlen', rfl⟩

/-- The hash inserted last is contained: the roll comes before the insert. -/
theorem insert_contains {f : CRollingFastFilter} (hash : Uint256)
    (hlen : f.vData.length = filterBytes filterSize) :
    ∃ g, insert filterSize f hash = some g ∧ g.vData.length = filterBytes filterSize ∧
      CFastFilter.contains filterSize 16 g.toCFastFilter hash = some true := by
  obtain ⟨f₁, hroll, hlen₁, -⟩ := roll_spec hp hlen
  obtain ⟨D, hins, hlenD, hbits⟩ := CFastFilter.insert_spec hp hash hlen₁
  refine ⟨_, by rw [insert, hroll, Option.bind_eq_bind, Option.bind_some, hins]; rfl, hlenD.trans hlen₁, ?_⟩
  rw [CFastFilter.contains_spec hp hash (hlenD.trans hlen₁), List.all_eq_true.mpr fun n hn => by simp [hbits, hn]]

end CRollingFastFilter

end Membercoin
