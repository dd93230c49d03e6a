import Membercoin.Iblt.Table
import Membercoin.Lib.NetSum
import Membercoin.Lib.OptionLoop

/-!
# What the cells of an IBLT hold (iblt.cpp)

`_insert(plusOrMinus, k, v)` visits one cell per hash function, each in that
function's own block of `bucketsPerHash` cells (`hits`): it adds `plusOrMinus`
to the cell's count, xors `k` into its `keySum` and the key's checksum into its
`keyCheck` under `keycheckMask`. `operator-` combines two tables cell by cell
in the same way.

Here a cell is read as an element of an abelian group: its count, and its two
exclusive-or sums as `XorWord`s (`cellVal`). With empty values, which is how
Graphene inserts (`IBLT_NULL_VALUE`), an insert or an erase of `k` adds
`± delta k` to every cell (`insertEntry_cells`, `cellVal_updateEntry`). So a
table built by a run of inserts and erases holds in every cell its start plus
a signed sum over the run (`runOps_cells`), and that sum depends on the net
multiplicity of each key alone (`NetSum.sum_zsmul_eq_of_net_eq`): tables built
from fresh ones with the same layout by runs with the same net multiplicities
have the same cells, and the difference `A - B` of two such tables has the
cells of the run of `A` followed by the run of `B` inverted.
-/

namespace Membercoin

namespace CIblt

/-- The cell at `idx`, a default cell past the end. -/
def cell (t : CIblt) (idx : Nat) : HashTableEntry := t.hashTable.getD idx default

/-- The fields that decide which cells a key visits and what it xors into
`keyCheck`; `_insert` changes none of them. -/
structure Layout where
  version : Nat
  n_hash : Nat
  keycheckMask : Nat
  size : Nat
  mapHashIdxSeeds : List (Nat × Nat)
  deriving DecidableEq

def layout (t : CIblt) : Layout := ⟨t.version, t.n_hash, t.keycheckMask, t.hashTable.length, t.mapHashIdxSeeds⟩

/-- `bucketsPerHash` of `_insert`. -/
def bucketsPerHash (t : CIblt) : Nat := t.hashTable.length / t.n_hash

variable (murmurHash3 : Nat → List UInt8 → Nat)

/-- The bucket that hash function `i` gives `k` in its block; a missing seed,
for which `_insert` throws, reads as zero. -/
def bucket (t : CIblt) (i : Nat) (k : UInt64) : Nat :=
  (saltedHashValue murmurHash3 t i (toVec k)).getD 0 % 2 ^ 32 % bucketsPerHash t

/-- `_insert` of `k` visits cell `idx`: the cell lies in the block of a hash
function, at the bucket that function gives `k`. -/
def hits (t : CIblt) (k : UInt64) (idx : Nat) : Bool :=
  decide (idx < t.n_hash * bucketsPerHash t) && idx % bucketsPerHash t == bucket murmurHash3 t (idx / bucketsPerHash t) k

/-- `keyChecksumCalc(ToVec(k)) & keycheckMask`. -/
def maskedCheck (t : CIblt) (k : UInt64) : UInt32 :=
  (murmurHash3 nHashCheck (toVec k)).toUInt32 &&& t.keycheckMask.toUInt32

/-- `mapHashIdxSeeds.at` finds the seed of every hash function. -/
def Seeded (t : CIblt) : Prop :=
  0 < t.version → ∀ i < t.n_hash, ∃ seed, t.mapHashIdxSeeds.lookup i = some seed

/-- A cell's count and its two exclusive-or sums, in one abelian group. -/
abbrev CellGroup := ℤ × XorWord UInt64 × XorWord UInt32

/-- The cell as an element of `CellGroup`. -/
def cellVal (e : HashTableEntry) : CellGroup := (e.count, ⟨e.keySum⟩, ⟨e.keyCheck⟩)

/-- What `_insert` of `k` with the sign `1` adds to cell `idx`. -/
def delta (t : CIblt) (idx : Nat) (k : UInt64) : CellGroup :=
  if hits murmurHash3 t k idx then (1, ⟨k⟩, ⟨maskedCheck murmurHash3 t k⟩) else 0

/-- A call with an empty value (`IBLT_NULL_VALUE`): `insert(k, v)` or `erase(k, v)`. -/
inductive KeyOp
  | insert (k : UInt64)
  | erase (k : UInt64)
  deriving DecidableEq, Repr

/-- The key with the sign of its `_insert`. -/
def KeyOp.signed : KeyOp → ℤ × UInt64
  | .insert k => (1, k)
  | .erase k => (-1, k)

/-- The call that undoes this one. -/
def KeyOp.inverse : KeyOp → KeyOp
  | .insert k => .erase k
  | .erase k => .insert k

def applyOp (t : CIblt) : KeyOp → Option CIblt
  | .insert k => t.insert murmurHash3 k []
  | .erase k => t.erase murmurHash3 k []

/-- A run of calls on a table; a call that throws, or whose `int32_t` count
overflows, stops it. -/
def runOps (t : CIblt) (ops : List KeyOp) : Option CIblt := ops.foldlM (applyOp murmurHash3) t

/-- One cell of `operator-`: count subtracted, sums xored, the check under the
mask of the left table. -/
def subEntry (keycheckMask : Nat) (e1 e2 : HashTableEntry) : Option HashTableEntry := do
  let count ← checkedInt32 (e1.count - e2.count)
  let e : HashTableEntry :=
    { e1 with count, keySum := e1.keySum ^^^ e2.keySum, keyCheck := (e1.keyCheck ^^^ e2.keyCheck) &&& keycheckMask.toUInt32 }
  pure { e with valueSum := if e.empty then [] else HashTableEntry.addValue e.valueSum e2.valueSum }

/-- The loop of `operator-` over the cells of both tables. -/
def subCells (keycheckMask : Nat) : List HashTableEntry → List HashTableEntry → Option (List HashTableEntry)
  | e1 :: es1, e2 :: es2 => do
    let e ← subEntry keycheckMask e1 e2
    let es ← subCells keycheckMask es1 es2
    pure (e :: es)
  | _, _ => some []

/-- `CIblt::operator-`; the `assert` that the sizes agree fails as `none`. -/
def sub (t other : CIblt) : Option CIblt :=
  if t.hashTable.length = other.hashTable.length then do
    let hashTable ← subCells t.keycheckMask t.hashTable other.hashTable
    pure { t with hashTable }
  else none

/-! ## One call of `_insert` -/

/-- A cell as inserts and erases of empty values leave it: the check under
the mask, the value empty, the count an `int32_t`. -/
structure NullCell (keycheckMask : Nat) (e : HashTableEntry) : Prop where
  masked : e.keyCheck &&& keycheckMask.toUInt32 = e.keyCheck
  null : e.valueSum = []
  count_ge : -2 ^ 31 ≤ e.count
  count_lt : e.count < 2 ^ 31

/-- Every cell of the table is a `NullCell`. -/
def NullCells (t : CIblt) : Prop := ∀ idx, NullCell t.keycheckMask (t.cell idx)

theorem nullCell_default (keycheckMask : Nat) : NullCell keycheckMask default :=
  ⟨UInt32.zero_and, rfl, by decide, by decide⟩

theorem xor_and_mask (a b m : UInt32) : (a ^^^ b) &&& m = (a &&& m) ^^^ (b &&& m) := by
  apply UInt32.toBitVec_inj.mp
  simp only [UInt32.toBitVec_and, UInt32.toBitVec_xor]
  ext i
  simp [Bool.and_xor_distrib_right]

/-- A sign `±1` leaves the exclusive-or parts of a cell as they are. -/
theorem smul_cell {s : ℤ} (hs : s = 1 ∨ s = -1) (c : ℤ) (x : XorWord UInt64) (y : XorWord UInt32) :
    s • ((c, x, y) : CellGroup) = (s * c, x, y) := by
  rw [Prod.smul_mk, Prod.smul_mk, XorWord.zsmul_of_unit XorWord.neg_eq64 hs,
    XorWord.zsmul_of_unit XorWord.neg_eq32 hs, smul_eq_mul]

/-- One cell update of `_insert` with an empty value: the cell moves by the
signed key and stays a `NullCell`. -/
theorem cellVal_updateEntry {t : CIblt} {s : ℤ} (hs : s = 1 ∨ s = -1) {k : UInt64} {e e' : HashTableEntry}
    (he : NullCell t.keycheckMask e) (h : updateEntry t s k (murmurHash3 nHashCheck (toVec k)) [] e = some e') :
    cellVal e' = cellVal e + s • ((1, ⟨k⟩, ⟨maskedCheck murmurHash3 t k⟩) : CellGroup) ∧
      NullCell t.keycheckMask e' := by
  unfold updateEntry checkedInt32 at h
  split_ifs at h with hrange
  · simp only [Option.bind_eq_bind, Option.bind_some, Option.pure_def, Option.some.injEq] at h
    subst h
    have hcheck : (e.keyCheck ^^^ (murmurHash3 nHashCheck (toVec k)).toUInt32) &&& t.keycheckMask.toUInt32 =
        e.keyCheck ^^^ maskedCheck murmurHash3 t k := by
      rw [xor_and_mask, he.masked, maskedCheck]
    rw [hcheck]
    refine ⟨?_, ⟨?_, ?_, hrange.1, hrange.2⟩⟩
    · rw [smul_cell hs, mul_one]
      rfl
    · rw [xor_and_mask, he.masked, maskedCheck, UInt32.and_assoc, UInt32.and_self]
    · split <;> simp [he.null, HashTableEntry.addValue]
  · cases h

/-- The cells after the first `j` rounds of `_insert`: those that the first `j`
hash functions give `k` are updated, the others are as they were. -/
def RoundsRun (t : CIblt) (s : ℤ) (k : UInt64) (v : List UInt8) (j : Nat) (T : List HashTableEntry) : Prop :=
  T.length = t.hashTable.length ∧ ∀ idx < t.hashTable.length,
    if hits murmurHash3 t k idx && decide (idx / bucketsPerHash t < j) then
      updateEntry t s k (murmurHash3 nHashCheck (toVec k)) v (t.cell idx) = some (T.getD idx default)
    else T.getD idx default = t.cell idx

theorem saltedHashValue_of_seeded {t : CIblt} (hseed : Seeded t) {i : Nat} (hi : i < t.n_hash) (kvec : List UInt8) :
    ∃ h, saltedHashValue murmurHash3 t i kvec = some h := by
  unfold saltedHashValue
  split_ifs with hv
  · obtain ⟨seed, hseed⟩ := hseed hv i hi
    exact ⟨_, by rw [hseed]; rfl⟩
  · exact ⟨_, rfl⟩

/-- The cell round `j` of `_insert` visits: in block `j`, at the bucket. -/
theorem block_cell {j r b : Nat} (hr : r < b) : (j * b + r) / b = j ∧ (j * b + r) % b = r := by
  have hb : 0 < b := Nat.lt_of_le_of_lt (Nat.zero_le r) hr
  refine ⟨?_, ?_⟩
  · rw [Nat.mul_comm, Nat.mul_add_div hb, Nat.div_eq_of_lt hr, Nat.add_zero]
  · rw [Nat.mul_comm, Nat.mul_add_mod, Nat.mod_eq_of_lt hr]

/-- Round `j` of `_insert` visits the one cell of block `j` that `hits` names. -/
theorem hits_iff_round {t : CIblt} {k : UInt64} {j h idx : Nat} (hj : j < t.n_hash) (hb : 0 < bucketsPerHash t)
    (hh : saltedHashValue murmurHash3 t j (toVec k) = some h) :
    (hits murmurHash3 t k idx && decide (idx / bucketsPerHash t = j)) = true ↔
      idx = j * bucketsPerHash t + h % 2 ^ 32 % bucketsPerHash t := by
  have hr := Nat.mod_lt (h % 2 ^ 32) hb
  obtain ⟨hdiv, hmod⟩ := block_cell (j := j) hr
  have hbucket : bucket murmurHash3 t j k = h % 2 ^ 32 % bucketsPerHash t := by
    rw [bucket, hh]
    rfl
  have hblock : (j + 1) * bucketsPerHash t ≤ t.n_hash * bucketsPerHash t := Nat.mul_le_mul_right _ hj
  rw [Nat.succ_mul] at hblock
  constructor
  · intro hi
    simp only [hits, Bool.and_eq_true, decide_eq_true_eq, beq_iff_eq] at hi
    obtain ⟨⟨-, hidx⟩, hblk⟩ := hi
    rw [hblk, hbucket] at hidx
    have := Nat.div_add_mod idx (bucketsPerHash t)
    rw [hblk, hidx, Nat.mul_comm] at this
    exact this.symm
  · rintro rfl
    simp only [hits, Bool.and_eq_true, decide_eq_true_eq, beq_iff_eq, hdiv, hmod, hbucket]
    exact ⟨⟨by omega, trivial⟩, trivial⟩

/-- Round `i` of the loop of `_insert`. -/
def insertRound (t : CIblt) (s : ℤ) (k : UInt64) (v : List UInt8) (T : List HashTableEntry) (i : Nat) :
    Option (List HashTableEntry) := do
  let h ← saltedHashValue murmurHash3 t i (toVec k)
  let idx := i * bucketsPerHash t + h % 2 ^ 32 % bucketsPerHash t
  let entry ← T[idx]?
  let entry ← updateEntry t s k (murmurHash3 nHashCheck (toVec k)) v entry
  pure (T.set idx entry)

theorem insertEntry_eq (t : CIblt) (s : ℤ) (k : UInt64) (v : List UInt8) :
    insertEntry murmurHash3 t s k v =
      if t.n_hash = 0 then some t
      else if bucketsPerHash t = 0 then some t
      else ((List.range t.n_hash).foldlM (insertRound murmurHash3 t s k v) t.hashTable).bind
        fun T => some { t with hashTable := T, is_modified := true } := rfl

/-- One round of `_insert` updates the cell it visits. -/
theorem roundsRun_step {t : CIblt} {s : ℤ} {k : UInt64} {v : List UInt8} {j : Nat} {T T' : List HashTableEntry}
    (hj : j < t.n_hash) (hb : 0 < bucketsPerHash t) (hT : RoundsRun murmurHash3 t s k v j T)
    (hround : insertRound murmurHash3 t s k v T j = some T') : RoundsRun murmurHash3 t s k v (j + 1) T' := by
  obtain ⟨hlen, hcells⟩ := hT
  obtain ⟨h, hh, hround⟩ := Option.bind_eq_some_iff.mp hround
  obtain ⟨entry, hentry, hround⟩ := Option.bind_eq_some_iff.mp hround
  obtain ⟨entry', hupd, hround⟩ := Option.bind_eq_some_iff.mp hround
  cases hround
  set idxj := j * bucketsPerHash t + h % 2 ^ 32 % bucketsPerHash t with hidxj
  have hvisit : (hits murmurHash3 t k idxj && decide (idxj / bucketsPerHash t = j)) = true :=
    (hits_iff_round murmurHash3 hj hb hh).mpr rfl
  simp only [Bool.and_eq_true, decide_eq_true_eq] at hvisit
  have hidx_lt : idxj < T.length := by
    obtain ⟨hlt, -⟩ := hvisit
    simp only [hits, Bool.and_eq_true, decide_eq_true_eq] at hlt
    rw [hlen]
    exact Nat.lt_of_lt_of_le hlt.1 (by rw [bucketsPerHash, Nat.mul_comm]; exact Nat.div_mul_le_self _ _)
  have hold : T.getD idxj default = t.cell idxj := by
    have := hcells idxj (by rw [← hlen]; exact hidx_lt)
    rwa [if_neg (by simp [hvisit.2])] at this
  have hentry' : entry = t.cell idxj := by
    rw [← hold, List.getD_eq_getElem?_getD, hentry]
    rfl
  refine ⟨by rw [List.length_set, hlen], fun idx hidx => ?_⟩
  rw [List.getD_eq_getElem?_getD, List.getElem?_set]
  by_cases hi : idxj = idx
  · subst hi
    rw [if_pos rfl, if_pos hidx_lt, if_pos (by simp [hvisit.1, hvisit.2]), ← hentry']
    exact hupd
  · rw [if_neg hi, ← List.getD_eq_getElem?_getD]
    have hcell := hcells idx hidx
    have hnotj : ¬(hits murmurHash3 t k idx && decide (idx / bucketsPerHash t = j)) = true :=
      fun hc => hi ((hits_iff_round murmurHash3 hj hb hh).mp hc).symm
    have hcond : (hits murmurHash3 t k idx && decide (idx / bucketsPerHash t < j + 1)) =
        (hits murmurHash3 t k idx && decide (idx / bucketsPerHash t < j)) := by
      simp only [Bool.and_eq_true, decide_eq_true_eq, not_and] at hnotj
      cases hhit : hits murmurHash3 t k idx
      · rfl
      · have := hnotj hhit
        simp only [Bool.true_and, decide_eq_decide]
        omega
    rw [hcond]
    exact hcell

theorem roundsRun_zero (t : CIblt) (s : ℤ) (k : UInt64) (v : List UInt8) :
    RoundsRun murmurHash3 t s k v 0 t.hashTable :=
  ⟨rfl, fun idx _ => by rw [if_neg (by simp)]; rfl⟩

/-- A cell that `_insert` visits lies in the block of a hash function. -/
theorem hits_lt {t : CIblt} {k : UInt64} {idx : Nat} (h : hits murmurHash3 t k idx = true) :
    0 < bucketsPerHash t ∧ idx / bucketsPerHash t < t.n_hash := by
  simp only [hits, Bool.and_eq_true, decide_eq_true_eq] at h
  have hb : 0 < bucketsPerHash t := by
    rcases Nat.eq_zero_or_pos (bucketsPerHash t) with h0 | h0
    · rw [h0, Nat.mul_zero] at h
      omega
    · exact h0
  exact ⟨hb, (Nat.div_lt_iff_lt_mul hb).mpr h.1⟩

/-- `_insert` of `k`: the layout stays, each cell that `k` visits is updated
and every other cell is as it was. -/
theorem insertEntry_cells {t t' : CIblt} {s : ℤ} {k : UInt64} {v : List UInt8}
    (h : insertEntry murmurHash3 t s k v = some t') :
    layout t' = layout t ∧ ∀ idx < t.hashTable.length,
      if hits murmurHash3 t k idx then
        updateEntry t s k (murmurHash3 nHashCheck (toVec k)) v (t.cell idx) = some (t'.cell idx)
      else t'.cell idx = t.cell idx := by
  rw [insertEntry_eq] at h
  split_ifs at h with hn hb
  · cases h
    refine ⟨rfl, fun idx _ => ?_⟩
    rw [if_neg fun hh => absurd (hits_lt murmurHash3 hh).2 (by rw [hn]; exact Nat.not_lt_zero _)]
  · cases h
    refine ⟨rfl, fun idx _ => ?_⟩
    rw [if_neg fun hh => by have := (hits_lt murmurHash3 hh).1; omega]
  · obtain ⟨T, hT, h⟩ := Option.bind_eq_some_iff.mp h
    cases h
    obtain ⟨hlen, hcells⟩ := OptionLoop.foldlM_range_invariant _ (RoundsRun murmurHash3 t s k v) hT
      (roundsRun_zero murmurHash3 t s k v)
      (fun j T T' hj hTj hround => roundsRun_step murmurHash3 hj (Nat.pos_of_ne_zero hb) hTj hround)
    refine ⟨by rw [layout, layout, hlen], fun idx hidx => ?_⟩
    have hcell := hcells idx hidx
    have hcond : (hits murmurHash3 t k idx && decide (idx / bucketsPerHash t < t.n_hash)) =
        hits murmurHash3 t k idx := by
      cases hhit : hits murmurHash3 t k idx
      · rfl
      · simp [(hits_lt murmurHash3 hhit).2]
    rw [hcond] at hcell
    exact hcell

/-- `_insert` of `k` succeeds when every seed is there and every cell it visits
can be updated. -/
theorem insertEntry_exists {t : CIblt} (hseed : Seeded t) (s : ℤ) (k : UInt64) (v : List UInt8)
    (hupd : ∀ idx < t.hashTable.length, hits murmurHash3 t k idx = true →
      ∃ e', updateEntry t s k (murmurHash3 nHashCheck (toVec k)) v (t.cell idx) = some e') :
    ∃ t', insertEntry murmurHash3 t s k v = some t' := by
  rw [insertEntry_eq]
  split_ifs with hn hb
  · exact ⟨t, rfl⟩
  · exact ⟨t, rfl⟩
  · have hbpos := Nat.pos_of_ne_zero hb
    obtain ⟨T, hT, -⟩ := OptionLoop.foldlM_range_exists (insertRound murmurHash3 t s k v)
      (RoundsRun murmurHash3 t s k v) (roundsRun_zero murmurHash3 t s k v) (by
        intro j T hj hTj
        obtain ⟨h, hh⟩ := saltedHashValue_of_seeded murmurHash3 hseed hj (toVec k)
        have hvisit := (hits_iff_round murmurHash3 (k := k) hj hbpos hh).mpr rfl
        simp only [Bool.and_eq_true, decide_eq_true_eq] at hvisit
        have hlt : j * bucketsPerHash t + h % 2 ^ 32 % bucketsPerHash t < t.hashTable.length := by
          have := hits_lt murmurHash3 hvisit.1
          have hle : t.n_hash * bucketsPerHash t ≤ t.hashTable.length := by
            rw [bucketsPerHash, Nat.mul_comm]
            exact Nat.div_mul_le_self _ _
          simp only [hits, Bool.and_eq_true, decide_eq_true_eq] at hvisit
          omega
        have hold : T.getD (j * bucketsPerHash t + h % 2 ^ 32 % bucketsPerHash t) default =
            t.cell (j * bucketsPerHash t + h % 2 ^ 32 % bucketsPerHash t) := by
          have := hTj.2 _ hlt
          rwa [if_neg (by rw [hvisit.2]; simp)] at this
        obtain ⟨e', he'⟩ := hupd _ hlt hvisit.1
        have hget : T[j * bucketsPerHash t + h % 2 ^ 32 % bucketsPerHash t]? =
            some (t.cell (j * bucketsPerHash t + h % 2 ^ 32 % bucketsPerHash t)) := by
          rw [← hold, List.getD_eq_getElem?_getD, List.getElem?_eq_getElem (by rw [hTj.1]; exact hlt)]
          rfl
        have hround : insertRound murmurHash3 t s k v T j =
            some (T.set (j * bucketsPerHash t + h % 2 ^ 32 % bucketsPerHash t) e') := by
          simp only [insertRound, hh, hget, he', Option.bind_eq_bind, Option.bind_some]
          rfl
        exact ⟨_, hround, roundsRun_step murmurHash3 hj hbpos hTj hround⟩)
    exact ⟨_, by rw [hT, Option.bind_some]⟩

/-! ## Runs of inserts and erases -/

theorem hits_congr {t t' : CIblt} (h : layout t' = layout t) : hits murmurHash3 t' = hits murmurHash3 t := by
  simp only [layout, Layout.mk.injEq] at h
  obtain ⟨hv, hn, -, hlen, hseeds⟩ := h
  funext k idx
  unfold hits bucket bucketsPerHash saltedHashValue
  rw [hv, hn, hlen, hseeds]

theorem delta_congr {t t' : CIblt} (h : layout t' = layout t) : delta murmurHash3 t' = delta murmurHash3 t := by
  have hmask : t'.keycheckMask = t.keycheckMask := congrArg Layout.keycheckMask h
  funext idx k
  simp only [delta, maskedCheck, hits_congr murmurHash3 h, hmask]

/-- A cell past the end of the table is never visited. -/
theorem hits_of_ge {t : CIblt} {k : UInt64} {idx : Nat} (hidx : t.hashTable.length ≤ idx) :
    hits murmurHash3 t k idx = false := by
  have hle : t.n_hash * bucketsPerHash t ≤ t.hashTable.length := by
    rw [bucketsPerHash, Nat.mul_comm]
    exact Nat.div_mul_le_self _ _
  simp only [hits, Bool.and_eq_false_iff, decide_eq_false_iff_not]
  exact Or.inl (by omega)

theorem cell_of_ge {t : CIblt} {idx : Nat} (hidx : t.hashTable.length ≤ idx) : t.cell idx = default :=
  List.getD_eq_default _ _ hidx

/-- `_insert` of a key with an empty value and a sign `±1`: every cell moves
by the signed `delta`, and stays a `NullCell`. -/
theorem insertEntry_nullCells {t t' : CIblt} {s : ℤ} (hs : s = 1 ∨ s = -1) {k : UInt64}
    (h : insertEntry murmurHash3 t s k [] = some t') (hc : NullCells t) :
    layout t' = layout t ∧ NullCells t' ∧
      ∀ idx, cellVal (t'.cell idx) = cellVal (t.cell idx) + s • delta murmurHash3 t idx k := by
  obtain ⟨hlay, hcells⟩ := insertEntry_cells murmurHash3 h
  have hmask : t'.keycheckMask = t.keycheckMask := congrArg Layout.keycheckMask hlay
  have hlen : t'.hashTable.length = t.hashTable.length := congrArg Layout.size hlay
  have hcell : ∀ idx, cellVal (t'.cell idx) = cellVal (t.cell idx) + s • delta murmurHash3 t idx k ∧
      NullCell t.keycheckMask (t'.cell idx) := by
    intro idx
    by_cases hidx : idx < t.hashTable.length
    · have hc' := hcells idx hidx
      cases hhit : hits murmurHash3 t k idx
      · rw [if_neg (by simp [hhit])] at hc'
        rw [hc', delta, if_neg (by simp [hhit]), smul_zero, add_zero]
        exact ⟨rfl, hc idx⟩
      · rw [if_pos hhit] at hc'
        rw [delta, if_pos hhit]
        exact cellVal_updateEntry murmurHash3 hs (hc idx) hc'
    · rw [cell_of_ge (by omega), cell_of_ge (by omega), delta, if_neg (by simp [hits_of_ge murmurHash3 (k := k) (Nat.le_of_not_lt hidx)]),
        smul_zero, add_zero]
      exact ⟨rfl, nullCell_default _⟩
  exact ⟨hlay, fun idx => hmask ▸ (hcell idx).2, fun idx => (hcell idx).1⟩

theorem applyOp_nullCells {t t' : CIblt} {op : KeyOp} (h : applyOp murmurHash3 t op = some t') (hc : NullCells t) :
    layout t' = layout t ∧ NullCells t' ∧
      ∀ idx, cellVal (t'.cell idx) = cellVal (t.cell idx) + op.signed.1 • delta murmurHash3 t idx op.signed.2 := by
  cases op with
  | insert k => exact insertEntry_nullCells murmurHash3 (Or.inl rfl) h hc
  | erase k => exact insertEntry_nullCells murmurHash3 (Or.inr rfl) h hc

/-- A run of inserts and erases of empty values: every cell holds its start
plus the signed sum of what the keys add to it. -/
theorem runOps_cells {t t' : CIblt} {ops : List KeyOp} (h : runOps murmurHash3 t ops = some t') (hc : NullCells t) :
    layout t' = layout t ∧ NullCells t' ∧ ∀ idx, cellVal (t'.cell idx) =
      cellVal (t.cell idx) + ((ops.map KeyOp.signed).map fun o => o.1 • delta murmurHash3 t idx o.2).sum := by
  induction ops generalizing t with
  | nil =>
    cases h
    exact ⟨rfl, hc, fun idx => by simp⟩
  | cons op ops ih =>
    obtain ⟨t₁, h₁, hrest⟩ := Option.bind_eq_some_iff.mp h
    obtain ⟨hlay₁, hc₁, hval₁⟩ := applyOp_nullCells murmurHash3 h₁ hc
    obtain ⟨hlay, hc', hval⟩ := ih hrest hc₁
    refine ⟨hlay.trans hlay₁, hc', fun idx => ?_⟩
    rw [hval, hval₁, delta_congr murmurHash3 hlay₁, List.map_cons, List.map_cons, List.sum_cons, add_assoc]

/-! ## `operator-` -/

/-- Every cell is as the constructor leaves it. -/
def Fresh (t : CIblt) : Prop := ∀ idx, t.cell idx = default

theorem Fresh.nullCells {t : CIblt} (h : Fresh t) : NullCells t := fun idx => by
  rw [h idx]
  exact nullCell_default _

theorem Fresh.of_forall {t : CIblt} (h : ∀ e ∈ t.hashTable, e = default) : Fresh t := fun idx => by
  by_cases hidx : idx < t.hashTable.length
  · rw [cell, List.getD_eq_getElem _ _ hidx]
    exact h _ (List.getElem_mem hidx)
  · exact cell_of_ge (Nat.le_of_not_lt hidx)

theorem cellVal_default : cellVal default = 0 := rfl

theorem eq_of_cellVal_eq {e e' : HashTableEntry} (h : cellVal e = cellVal e') (hv : e.valueSum = e'.valueSum) :
    e = e' := by
  obtain ⟨c, ks, kc, vs⟩ := e
  obtain ⟨c', ks', kc', vs'⟩ := e'
  simp only [cellVal, Prod.mk.injEq, XorWord.mk.injEq] at h
  obtain ⟨rfl, rfl, rfl⟩ := h
  cases hv
  rfl

theorem hashTable_eq_of_cell_eq {t t' : CIblt} (hlen : t.hashTable.length = t'.hashTable.length)
    (h : ∀ idx, t.cell idx = t'.cell idx) : t.hashTable = t'.hashTable := by
  apply List.ext_getElem hlen
  intro i h1 h2
  have hi := h i
  rwa [cell, cell, List.getD_eq_getElem _ _ h1, List.getD_eq_getElem _ _ h2] at hi

/-- A cell of `operator-` on `NullCell`s is the difference in `CellGroup`. -/
theorem subEntry_eq_of_cellVal {m : Nat} {e1 e2 e : HashTableEntry} (h1 : NullCell m e1) (h2 : NullCell m e2)
    (he : NullCell m e) (hval : cellVal e = cellVal e1 - cellVal e2) : subEntry m e1 e2 = some e := by
  obtain ⟨c, ks, kc, vs⟩ := e
  simp only [cellVal, Prod.mk_sub_mk, Prod.mk.injEq] at hval
  obtain ⟨hc, hks, hkc⟩ := hval
  have hks' : ks = e1.keySum ^^^ e2.keySum := congrArg XorWord.val hks
  have hkc' : kc = e1.keyCheck ^^^ e2.keyCheck := congrArg XorWord.val hkc
  have hvs : vs = [] := he.null
  subst hc hks' hkc' hvs
  unfold subEntry checkedInt32
  rw [if_pos ⟨he.count_ge, he.count_lt⟩]
  simp only [Option.bind_eq_bind, Option.bind_some, Option.pure_def, Option.some.injEq]
  rw [xor_and_mask, h1.masked, h2.masked, h1.null, h2.null]
  split <;> simp [HashTableEntry.addValue]

theorem subCells_eq_some {m : Nat} :
    ∀ {l1 l2 l : List HashTableEntry}, l1.length = l2.length → l.length = l1.length →
      (∀ i < l1.length, subEntry m (l1.getD i default) (l2.getD i default) = some (l.getD i default)) →
      subCells m l1 l2 = some l
  | [], [], [], _, _, _ => rfl
  | e1 :: l1, e2 :: l2, e :: l, hlen, hlen', h => by
    have h0 := h 0 (Nat.succ_pos _)
    have hrest := subCells_eq_some (Nat.succ.inj hlen) (Nat.succ.inj hlen')
      fun i hi => h (i + 1) (Nat.succ_lt_succ hi)
    simp only [List.getD_cons_zero] at h0
    simp only [subCells, h0, hrest, Option.bind_eq_bind, Option.bind_some, Option.pure_def]

/-! ## The cells as a homomorphism of the keys -/

/-- A table built from a fresh one: each cell is the signed sum of what the
keys add to it. -/
theorem runOps_cellVal_of_fresh {t t' : CIblt} {ops : List KeyOp} (h : runOps murmurHash3 t ops = some t')
    (hfresh : Fresh t) (idx : Nat) :
    cellVal (t'.cell idx) = ((ops.map KeyOp.signed).map fun o => o.1 • delta murmurHash3 t idx o.2).sum := by
  rw [(runOps_cells murmurHash3 h hfresh.nullCells).2.2 idx, hfresh idx, cellVal_default, zero_add]

theorem map_signed_inverse (ops : List KeyOp) :
    (ops.map KeyOp.inverse).map KeyOp.signed = (ops.map KeyOp.signed).map fun o => (-o.1, o.2) := by
  induction ops with
  | nil => rfl
  | cons op ops ih =>
    cases op <;> simp [ih, KeyOp.inverse, KeyOp.signed]

theorem iblt_cells_homomorphism {t₀ t₀' A B : CIblt} {opsA opsB : List KeyOp} (hlayout : layout t₀' = layout t₀)
    (hfresh : Fresh t₀) (hfresh' : Fresh t₀') (hA : runOps murmurHash3 t₀ opsA = some A)
    (hB : runOps murmurHash3 t₀' opsB = some B) :
    ((∀ k, NetSum.net (opsA.map KeyOp.signed) k = NetSum.net (opsB.map KeyOp.signed) k) →
        A.hashTable = B.hashTable) ∧
      ∀ E, runOps murmurHash3 t₀ (opsA ++ opsB.map KeyOp.inverse) = some E →
        ∃ D, A.sub B = some D ∧ D.hashTable = E.hashTable := by
  obtain ⟨hlayA, hcA, -⟩ := runOps_cells murmurHash3 hA hfresh.nullCells
  obtain ⟨hlayB, hcB, -⟩ := runOps_cells murmurHash3 hB hfresh'.nullCells
  have hlenA : A.hashTable.length = t₀.hashTable.length := congrArg Layout.size hlayA
  have hlenB : B.hashTable.length = t₀.hashTable.length :=
    (congrArg Layout.size hlayB).trans (congrArg Layout.size hlayout)
  have hmaskB : B.keycheckMask = A.keycheckMask :=
    ((congrArg Layout.keycheckMask hlayB).trans (congrArg Layout.keycheckMask hlayout)).trans
      (congrArg Layout.keycheckMask hlayA).symm
  have hvalB : ∀ idx, cellVal (B.cell idx) =
      ((opsB.map KeyOp.signed).map fun o => o.1 • delta murmurHash3 t₀ idx o.2).sum := fun idx => by
    rw [runOps_cellVal_of_fresh murmurHash3 hB hfresh' idx, delta_congr murmurHash3 hlayout]
  refine ⟨fun hnet => hashTable_eq_of_cell_eq (hlenA.trans hlenB.symm) fun idx => ?_, fun E hE => ?_⟩
  · apply eq_of_cellVal_eq
    · rw [runOps_cellVal_of_fresh murmurHash3 hA hfresh idx, hvalB idx]
      exact NetSum.sum_zsmul_eq_of_net_eq _ hnet
    · rw [(hcA idx).null, (hcB idx).null]
  · obtain ⟨hlayE, hcE, -⟩ := runOps_cells murmurHash3 hE hfresh.nullCells
    have hlenE : E.hashTable.length = t₀.hashTable.length := congrArg Layout.size hlayE
    have hmaskE : E.keycheckMask = A.keycheckMask :=
      (congrArg Layout.keycheckMask hlayE).trans (congrArg Layout.keycheckMask hlayA).symm
    have hvalE : ∀ idx, cellVal (E.cell idx) = cellVal (A.cell idx) - cellVal (B.cell idx) := fun idx => by
      rw [runOps_cellVal_of_fresh murmurHash3 hE hfresh idx, List.map_append, List.map_append, List.sum_append,
        map_signed_inverse, NetSum.sum_zsmul_map_neg, runOps_cellVal_of_fresh murmurHash3 hA hfresh idx, hvalB idx,
        sub_eq_add_neg]
    refine ⟨{ A with hashTable := E.hashTable }, ?_, rfl⟩
    rw [sub, if_pos (hlenA.trans hlenB.symm)]
    rw [subCells_eq_some (hlenA.trans hlenB.symm) (hlenE.trans hlenA.symm) fun i _ =>
      subEntry_eq_of_cellVal (hcA i) (hmaskB ▸ hcB i) (hmaskE ▸ hcE i) (hvalE i)]
    rfl

theorem iblt_cells_homomorphism_two_cells :
    ∃ A B, runOps (fun seed kvec => seed + kvec.length) ⟨0, 0, 1, false, maxChecksumMask, List.replicate 2 default, []⟩
        [.insert 5, .erase 5, .insert 7] = some A ∧
      runOps (fun seed kvec => seed + kvec.length) ⟨0, 0, 1, false, maxChecksumMask, List.replicate 2 default, []⟩
        [.insert 7] = some B ∧ A.hashTable = B.hashTable := by
  have hfresh : Fresh ⟨0, 0, 1, false, maxChecksumMask, List.replicate 2 default, []⟩ :=
    Fresh.of_forall fun _ he => List.eq_of_mem_replicate he
  refine ⟨_, _, rfl, rfl, (@iblt_cells_homomorphism (fun seed kvec => seed + kvec.length) _ _ _ _
    [.insert 5, .erase 5, .insert 7] [.insert 7] rfl hfresh hfresh rfl rfl).1 fun k => ?_⟩
  simp only [List.map_cons, List.map_nil, KeyOp.signed, NetSum.net_cons, NetSum.net_nil]
  split_ifs <;> omega

end CIblt

end Membercoin
