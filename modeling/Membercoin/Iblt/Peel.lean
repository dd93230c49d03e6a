import Membercoin.Iblt.Cells

/-!
# Listing the entries of an IBLT by peeling (iblt.cpp)

`listEntries` copies the table and peels it: a pass runs over the cells, and
every cell that looks pure (a count of `±1` and the masked checksum of its
`keySum`) is listed, as positive for a count of `1` and as negative
otherwise, and erased from the copy with `_insert(-count, keySum, valueSum)`.
Passes repeat while one erased something and the total erased stays below
`hashTable.size() / MIN_OVERHEAD`. The table decoded when the first block of
cells, those of hash function `0`, is empty.

With empty values, a table built from keys `P` by insert and `N` by erase
holds in every cell the signed sum over the keys of `P \ N` and `N \ P` that
visit it (`cellSum`). The peeling keeps that form for the keys not yet listed
(`PeelInv`): as long as no cell that two or more of them visit looks pure or
empty (`NoCoincidence`), a cell looks pure exactly when one key is left in it
(`isPure_iff`), and erasing that key leaves the sum over the others. An empty
first block then means no key is left, since every key visits one cell of
that block. So `listEntries` always returns, and when it reports success it
has listed `P \ N` as positive and `N \ P` as negative (`listEntries_sound`),
also for the difference `A - B` of the tables of two key sets, as
`CGrapheneSet::Reconcile` uses it.
-/

namespace Membercoin

namespace CIblt

variable (murmurHash3 : Nat → List UInt8 → Nat)

/-- `BaseHashTableEntry::isPure`: a count of `±1`, and `keyCheck` the masked
checksum of `keySum`. -/
def isPure (e : HashTableEntry) (keycheckMask : Nat) : Bool :=
  if e.count = 1 ∨ e.count = -1 then
    e.keyCheck == (murmurHash3 nHashCheck (toVec e.keySum)).toUInt32 &&& keycheckMask.toUInt32
  else false

/-- The copy being peeled and the two sets filled so far, with the count of
cells erased in the current pass. -/
structure PeelState where
  peeled : CIblt
  positive : Finset (UInt64 × List UInt8)
  negative : Finset (UInt64 × List UInt8)
  nErased : Nat

/-- Round `i` of a pass: list and erase cell `i` if it looks pure. -/
def peelCell (keycheckMask : Nat) (st : PeelState) (i : Nat) : Option PeelState :=
  let entry := st.peeled.cell i
  if isPure murmurHash3 entry keycheckMask then
    let positive := if entry.count = 1 then Insert.insert (entry.keySum, entry.valueSum) st.positive else st.positive
    let negative := if entry.count = 1 then st.negative else Insert.insert (entry.keySum, entry.valueSum) st.negative
    (insertEntry murmurHash3 st.peeled (-entry.count) entry.keySum entry.valueSum).map
      fun peeled => ⟨peeled, positive, negative, st.nErased + 1⟩
  else some st

/-- One pass over the cells; the size of the copy does not change. -/
def peelPass (keycheckMask : Nat) (st : PeelState) : Option PeelState :=
  (List.range st.peeled.hashTable.length).foldlM (peelCell murmurHash3 keycheckMask) { st with nErased := 0 }

/-- The `do ... while` loop of `listEntries`. `budget` is the least total that
the `float` comparison with `hashTable.size() / MIN_OVERHEAD` refuses: the
comparison holds of every smaller total and of no larger one. -/
def peelLoop (keycheckMask budget : Nat) (st : PeelState) (nTotalErased : Nat) : Option (PeelState × Nat) :=
  match peelPass murmurHash3 keycheckMask st with
  | none => none
  | some st' =>
    if 0 < st'.nErased ∧ nTotalErased + st'.nErased < budget then
      peelLoop keycheckMask budget st' (nTotalErased + st'.nErased)
    else some (st', nTotalErased + st'.nErased)
termination_by budget - nTotalErased

/-- `CIblt::listEntries`: whether the peeled copy has an empty first block,
with the two sets as filled. -/
def listEntries (t : CIblt) (budget : Nat) (positive negative : Finset (UInt64 × List UInt8)) :
    Option (Bool × Finset (UInt64 × List UInt8) × Finset (UInt64 × List UInt8)) := do
  let (st, _) ← peelLoop murmurHash3 t.keycheckMask budget ⟨t, positive, negative, 0⟩ 0
  let decoded :=
    if t.n_hash = 0 then false
    else if st.peeled.hashTable.length / t.n_hash = 0 then false
    else (List.range (st.peeled.hashTable.length / t.n_hash)).all fun i => (st.peeled.cell i).empty
  pure (decoded, st.positive, st.negative)

/-! ## Cells as sums over keys -/

/-- The sign that inserts of `P` and erases of `N` leave on a key: `1`, `-1`,
or `0` for a key in both or in neither. -/
def keySign (P N : Finset UInt64) (k : UInt64) : ℤ := (if k ∈ P then 1 else 0) - (if k ∈ N then 1 else 0)

/-- What the cells of a table hold for the keys `S` with signs `σ`. -/
def cellSum (t : CIblt) (σ : UInt64 → ℤ) (S : Finset UInt64) (idx : Nat) : CellGroup :=
  ∑ k ∈ S, σ k • delta murmurHash3 t idx k

/-- `isPure` read off the value of a cell. -/
def PureVal (t : CIblt) (v : CellGroup) : Prop :=
  (v.1 = 1 ∨ v.1 = -1) ∧ v.2.2.val = maskedCheck murmurHash3 t v.2.1.val

instance (t : CIblt) (v : CellGroup) : Decidable (PureVal murmurHash3 t v) :=
  inferInstanceAs (Decidable (_ ∧ _))

/-- No checksum coincidence among the keys `S`: in the table of any part of
them, a cell that two or more keys visit neither looks pure nor is empty. -/
def NoCoincidence (t : CIblt) (σ : UInt64 → ℤ) (S : Finset UInt64) : Prop :=
  ∀ S' ⊆ S, ∀ idx < t.hashTable.length, 2 ≤ (S'.filter fun k => hits murmurHash3 t k idx).card →
    ¬PureVal murmurHash3 t (cellSum murmurHash3 t σ S' idx) ∧ cellSum murmurHash3 t σ S' idx ≠ 0

theorem isPure_iff (t : CIblt) (e : HashTableEntry) :
    isPure murmurHash3 e t.keycheckMask = true ↔ PureVal murmurHash3 t (cellVal e) := by
  unfold isPure PureVal
  split_ifs with h
  · simp [cellVal, maskedCheck, h]
  · simp only [cellVal, false_iff, not_and]
    exact fun h' => absurd h' h

theorem empty_iff (e : HashTableEntry) : e.empty = true ↔ cellVal e = 0 := by
  simp only [HashTableEntry.empty, Bool.and_eq_true, beq_iff_eq, cellVal]
  constructor
  · rintro ⟨⟨h1, h2⟩, h3⟩
    rw [h1, h2, h3]
    rfl
  · intro h
    simp only [Prod.mk_eq_zero] at h
    exact ⟨⟨h.1, congrArg XorWord.val h.2.1⟩, congrArg XorWord.val h.2.2⟩

variable {murmurHash3}

/-- Only the keys that visit a cell add to it. -/
theorem cellSum_eq_filter (t : CIblt) (σ : UInt64 → ℤ) (S : Finset UInt64) (idx : Nat) :
    cellSum murmurHash3 t σ S idx =
      ∑ k ∈ S.filter (fun k => hits murmurHash3 t k idx), σ k • ((1, ⟨k⟩, ⟨maskedCheck murmurHash3 t k⟩) : CellGroup) := by
  rw [cellSum, Finset.sum_filter]
  apply Finset.sum_congr rfl
  intro k _
  rw [delta]
  split_ifs <;> simp

theorem cellSum_erase (t : CIblt) (σ : UInt64 → ℤ) {S : Finset UInt64} {k : UInt64} (hk : k ∈ S) (idx : Nat) :
    cellSum murmurHash3 t σ S idx = cellSum murmurHash3 t σ (S.erase k) idx + σ k • delta murmurHash3 t idx k := by
  rw [cellSum, cellSum, ← Finset.add_sum_erase S _ hk, add_comm]

variable (murmurHash3)

/-- The count of a cell is at most the number of keys, for signs `±1`. -/
theorem abs_cellSum_fst_le (t : CIblt) {σ : UInt64 → ℤ} {S : Finset UInt64} (hσ : ∀ k ∈ S, σ k = 1 ∨ σ k = -1)
    (idx : Nat) : |(cellSum murmurHash3 t σ S idx).1| ≤ S.card := by
  rw [cellSum, Prod.fst_sum, Finset.card_eq_sum_ones, Nat.cast_sum]
  refine (Finset.abs_sum_le_sum_abs _ _).trans (Finset.sum_le_sum fun k hk => ?_)
  rw [Prod.smul_fst, delta]
  split_ifs
  · rcases hσ k hk with h | h <;> simp [h]
  · simp

/-- The three kinds of cell in the table of keys `S`: no key left in it, one
key (and then the cell is that key with its sign), or two or more. -/
theorem cellSum_cases (t : CIblt) {σ : UInt64 → ℤ} {S : Finset UInt64} (hσ : ∀ k ∈ S, σ k = 1 ∨ σ k = -1)
    (idx : Nat) :
    (S.filter (fun k => hits murmurHash3 t k idx) = ∅ ∧ cellSum murmurHash3 t σ S idx = 0) ∨
      (∃ k ∈ S, S.filter (fun k => hits murmurHash3 t k idx) = {k} ∧
        cellSum murmurHash3 t σ S idx = (σ k, ⟨k⟩, ⟨maskedCheck murmurHash3 t k⟩)) ∨
      2 ≤ (S.filter fun k => hits murmurHash3 t k idx).card := by
  rcases Nat.lt_or_ge (S.filter fun k => hits murmurHash3 t k idx).card 2 with hlt | hge
  · rcases Nat.lt_succ_iff_lt_or_eq.mp hlt with h0 | h1
    · have hempty := Finset.card_eq_zero.mp (Nat.lt_one_iff.mp h0)
      exact Or.inl ⟨hempty, by rw [cellSum_eq_filter, hempty, Finset.sum_empty]⟩
    · obtain ⟨k, hk⟩ := Finset.card_eq_one.mp h1
      have hkS : k ∈ S := (Finset.mem_filter.mp (hk ▸ Finset.mem_singleton_self k)).1
      refine Or.inr (Or.inl ⟨k, hkS, hk, ?_⟩)
      rw [cellSum_eq_filter, hk, Finset.sum_singleton, smul_cell (hσ k hkS), mul_one]
  · exact Or.inr (Or.inr hge)

/-! ## One round of a pass -/

/-- What the peeling of the keys `S₀` with signs `σ` needs: signs `±1`, no
checksum coincidence, fewer keys than an `int32_t` counts, and every seed. -/
structure Peelable (t₀ : CIblt) (σ : UInt64 → ℤ) (S₀ : Finset UInt64) : Prop where
  sign : ∀ k ∈ S₀, σ k = 1 ∨ σ k = -1
  noCoincidence : NoCoincidence murmurHash3 t₀ σ S₀
  card_lt : S₀.card < 2 ^ 31
  seeded : Seeded t₀

/-- The state of the peeling: the copy holds the keys `S` not yet listed, and
those listed are the other keys of `S₀`, each with an empty value, by sign. -/
structure PeelInv (t₀ : CIblt) (σ : UInt64 → ℤ) (S₀ S : Finset UInt64) (st : PeelState) : Prop where
  subset : S ⊆ S₀
  layout_eq : layout st.peeled = layout t₀
  nullCells : NullCells st.peeled
  cells : ∀ idx, cellVal (st.peeled.cell idx) = cellSum murmurHash3 t₀ σ S idx
  positive : st.positive = ((S₀ \ S).filter (σ · = 1)).image (·, [])
  negative : st.negative = ((S₀ \ S).filter (σ · = -1)).image (·, [])

theorem seeded_congr {t t' : CIblt} (h : layout t' = layout t) (hs : Seeded t) : Seeded t' := by
  simp only [layout, Layout.mk.injEq] at h
  obtain ⟨hv, hn, -, -, hseeds⟩ := h
  intro hpos i hi
  rw [hseeds]
  exact hs (hv ▸ hpos) i (hn ▸ hi)

/-- Taking `k` out of the keys left lists it in the set of its sign. -/
theorem image_filter_sdiff_erase {S₀ S : Finset UInt64} {k : UInt64} (hk : k ∈ S) (hS : S ⊆ S₀) (p : UInt64 → Prop)
    [DecidablePred p] :
    ((S₀ \ S.erase k).filter p).image (·, ([] : List UInt8)) =
      if p k then Insert.insert (k, []) (((S₀ \ S).filter p).image (·, [])) else ((S₀ \ S).filter p).image (·, []) := by
  rw [Finset.sdiff_erase (hS hk), Finset.filter_insert]
  split_ifs <;> simp [Finset.image_insert]

variable {murmurHash3}

/-- A cell whose value is not that of a single key does not look pure. -/
theorem isPure_eq_false_of_not_pureVal {t₀ : CIblt} {e : HashTableEntry}
    (h : ¬PureVal murmurHash3 t₀ (cellVal e)) : isPure murmurHash3 e t₀.keycheckMask = false := by
  cases hp : isPure murmurHash3 e t₀.keycheckMask
  · rfl
  · exact absurd ((isPure_iff murmurHash3 t₀ e).mp hp) h

/-- A round of a pass on a cell that does not look pure changes nothing. -/
theorem peelCell_of_not_pure {t₀ : CIblt} {st : PeelState} {i : Nat}
    (h : ¬PureVal murmurHash3 t₀ (cellVal (st.peeled.cell i))) :
    peelCell murmurHash3 t₀.keycheckMask st i = some st := by
  rw [peelCell, if_neg (by rw [isPure_eq_false_of_not_pureVal h]; exact Bool.false_ne_true)]

/-- Erasing `k`, which is left with its sign in the copy, succeeds and leaves
the sum over the other keys. -/
theorem insertEntry_peel {t₀ : CIblt} {σ : UInt64 → ℤ} {S₀ S : Finset UInt64} {st : PeelState}
    (hp : Peelable murmurHash3 t₀ σ S₀) (hinv : PeelInv murmurHash3 t₀ σ S₀ S st) {k : UInt64} (hk : k ∈ S) :
    ∃ t₁, insertEntry murmurHash3 st.peeled (-σ k) k [] = some t₁ ∧ layout t₁ = layout t₀ ∧ NullCells t₁ ∧
      ∀ idx, cellVal (t₁.cell idx) = cellSum murmurHash3 t₀ σ (S.erase k) idx := by
  have hsk : -σ k = 1 ∨ -σ k = -1 := by
    rcases hp.sign k (hinv.subset hk) with h | h <;> simp [h]
  have hσ : ∀ k' ∈ S.erase k, σ k' = 1 ∨ σ k' = -1 := fun k' hk' => hp.sign k' (hinv.subset (Finset.mem_of_mem_erase hk'))
  have hcard : (S.erase k).card < 2 ^ 31 :=
    lt_of_le_of_lt (Finset.card_le_card ((Finset.erase_subset k S).trans hinv.subset)) hp.card_lt
  have hupd : ∀ idx < st.peeled.hashTable.length, hits murmurHash3 st.peeled k idx = true →
      ∃ e', updateEntry st.peeled (-σ k) k (murmurHash3 nHashCheck (toVec k)) [] (st.peeled.cell idx) = some e' := by
    intro idx _ hhit
    rw [hits_congr murmurHash3 hinv.layout_eq] at hhit
    have hcount : (st.peeled.cell idx).count + -σ k = (cellSum murmurHash3 t₀ σ (S.erase k) idx).1 := by
      have hv := congrArg Prod.fst (hinv.cells idx)
      rw [cellSum_erase t₀ σ hk idx, delta, if_pos hhit] at hv
      simp only [cellVal, Prod.fst_add, Prod.smul_fst, smul_eq_mul, mul_one] at hv
      rw [hv]
      ring
    have hbound := abs_cellSum_fst_le murmurHash3 t₀ hσ idx
    rw [← hcount, abs_le] at hbound
    have hrange : -2 ^ 31 ≤ (st.peeled.cell idx).count + -σ k ∧ (st.peeled.cell idx).count + -σ k < 2 ^ 31 := by
      have hcard' : ((S.erase k).card : ℤ) < 2 ^ 31 := by exact_mod_cast hcard
      omega
    unfold updateEntry checkedInt32
    rw [if_pos hrange]
    exact ⟨_, rfl⟩
  obtain ⟨t₁, ht₁⟩ := insertEntry_exists murmurHash3 (seeded_congr hinv.layout_eq hp.seeded) _ k [] hupd
  obtain ⟨hlay, hnull, hval⟩ := insertEntry_nullCells murmurHash3 hsk ht₁ hinv.nullCells
  refine ⟨t₁, ht₁, hlay.trans hinv.layout_eq, hnull, fun idx => ?_⟩
  rw [hval, hinv.cells, delta_congr murmurHash3 hinv.layout_eq, cellSum_erase t₀ σ hk idx, add_assoc, ← add_smul,
    add_neg_cancel, zero_smul, add_zero]

/-- One round of a pass: a cell that looks pure holds exactly one key left,
which is listed by its sign and taken out of the copy. -/
theorem peelCell_step {t₀ : CIblt} {σ : UInt64 → ℤ} {S₀ S : Finset UInt64} {st : PeelState}
    (hp : Peelable murmurHash3 t₀ σ S₀) (hinv : PeelInv murmurHash3 t₀ σ S₀ S st) {i : Nat}
    (hi : i < t₀.hashTable.length) :
    ∃ st', peelCell murmurHash3 t₀.keycheckMask st i = some st' ∧
      ∃ S' ⊆ S, PeelInv murmurHash3 t₀ σ S₀ S' st' ∧ st'.nErased + S'.card = st.nErased + S.card := by
  have hσ : ∀ k ∈ S, σ k = 1 ∨ σ k = -1 := fun k hk => hp.sign k (hinv.subset hk)
  have hval := hinv.cells i
  rcases cellSum_cases murmurHash3 t₀ hσ i with ⟨-, h0⟩ | ⟨k, hkS, -, hk⟩ | hmulti
  · refine ⟨st, peelCell_of_not_pure ?_, S, subset_rfl, hinv, rfl⟩
    rw [hval, h0]
    rintro ⟨h | h, -⟩ <;> exact absurd h (by decide)
  · have hcount : (st.peeled.cell i).count = σ k := congrArg Prod.fst (hval.trans hk)
    have hkey : (st.peeled.cell i).keySum = k := congrArg (fun v => v.2.1.val) (hval.trans hk)
    have hpure : isPure murmurHash3 (st.peeled.cell i) t₀.keycheckMask = true := by
      rw [isPure_iff, hval, hk]
      exact ⟨hσ k hkS, rfl⟩
    obtain ⟨t₁, ht₁, hlay, hnull, hcells⟩ := insertEntry_peel hp hinv hkS
    have hnullv : (st.peeled.cell i).valueSum = [] := (hinv.nullCells i).null
    refine ⟨⟨t₁, if σ k = 1 then Insert.insert (k, []) st.positive else st.positive,
      if σ k = 1 then st.negative else Insert.insert (k, []) st.negative, st.nErased + 1⟩, ?_,
      S.erase k, Finset.erase_subset k S, ⟨(Finset.erase_subset k S).trans hinv.subset, hlay, hnull, hcells, ?_, ?_⟩, ?_⟩
    · rw [peelCell]
      simp only [hpure, if_true, hcount, hkey, hnullv, ht₁, Option.map_some]
    · dsimp only
      rw [image_filter_sdiff_erase hkS hinv.subset, hinv.positive]
    · dsimp only
      rw [image_filter_sdiff_erase hkS hinv.subset, hinv.negative]
      by_cases h1 : σ k = 1
      · have h1' : ¬σ k = -1 := by rw [h1]; decide
        rw [if_pos h1, if_neg h1']
      · rw [if_neg h1, if_pos ((hσ k hkS).resolve_left h1)]
    · dsimp only
      rw [Finset.card_erase_of_mem hkS]
      have := Finset.card_pos.mpr ⟨k, hkS⟩
      omega
  · refine ⟨st, peelCell_of_not_pure ?_, S, subset_rfl, hinv, rfl⟩
    rw [hval]
    exact (hp.noCoincidence S hinv.subset i hi hmulti).1

/-! ## Passes and the loop -/

/-- A pass succeeds; it erases as many cells as it takes keys out. -/
theorem peelPass_spec {t₀ : CIblt} {σ : UInt64 → ℤ} {S₀ S : Finset UInt64} {st : PeelState}
    (hp : Peelable murmurHash3 t₀ σ S₀) (hinv : PeelInv murmurHash3 t₀ σ S₀ S st) :
    ∃ st', peelPass murmurHash3 t₀.keycheckMask st = some st' ∧
      ∃ S' ⊆ S, PeelInv murmurHash3 t₀ σ S₀ S' st' ∧ st'.nErased + S'.card = S.card := by
  have hlen : st.peeled.hashTable.length = t₀.hashTable.length := congrArg Layout.size hinv.layout_eq
  obtain ⟨st', hpass, hP⟩ := @OptionLoop.foldlM_range_exists _ (peelCell murmurHash3 t₀.keycheckMask)
    (fun _ st' => ∃ S' ⊆ S, PeelInv murmurHash3 t₀ σ S₀ S' st' ∧ st'.nErased + S'.card = S.card)
    _ { st with nErased := 0 } ⟨S, subset_rfl, ⟨hinv.subset, hinv.layout_eq, hinv.nullCells, hinv.cells,
      hinv.positive, hinv.negative⟩, Nat.zero_add _⟩
    (by
      rintro j x hj ⟨S', hS', hinv', hcount⟩
      obtain ⟨y, hy, S'', hS'', hinv'', hcount'⟩ := peelCell_step hp hinv' (lt_of_lt_of_eq hj hlen)
      exact ⟨y, hy, S'', hS''.trans hS', hinv'', by omega⟩)
  exact ⟨st', hpass, hP⟩

/-- The loop of `listEntries` returns, with the invariant. -/
theorem peelLoop_spec {t₀ : CIblt} {σ : UInt64 → ℤ} {S₀ : Finset UInt64} (hp : Peelable murmurHash3 t₀ σ S₀)
    (budget : Nat) : ∀ (n : Nat) (st : PeelState) (nTotalErased : Nat) (S : Finset UInt64),
      budget - nTotalErased = n → PeelInv murmurHash3 t₀ σ S₀ S st →
      ∃ r, peelLoop murmurHash3 t₀.keycheckMask budget st nTotalErased = some r ∧
        ∃ S', PeelInv murmurHash3 t₀ σ S₀ S' r.1 := by
  intro n
  induction n using Nat.strong_induction_on with
  | _ n ih =>
    intro st nTotalErased S hn hinv
    obtain ⟨st', hpass, S', -, hinv', -⟩ := peelPass_spec hp hinv
    rw [peelLoop, hpass]
    dsimp only
    split_ifs with hmore
    · exact ih _ (by omega) st' _ S' rfl hinv'
    · exact ⟨_, rfl, S', hinv'⟩

/-- Every key of the table visits a cell of the first block. -/
theorem hits_bucket_zero {t : CIblt} (hn : t.n_hash ≠ 0) (hb : bucketsPerHash t ≠ 0) (k : UInt64) :
    hits murmurHash3 t k (bucket murmurHash3 t 0 k) = true ∧ bucket murmurHash3 t 0 k < bucketsPerHash t := by
  have hlt : bucket murmurHash3 t 0 k < bucketsPerHash t := Nat.mod_lt _ (Nat.pos_of_ne_zero hb)
  refine ⟨?_, hlt⟩
  have hle : bucketsPerHash t ≤ t.n_hash * bucketsPerHash t := Nat.le_mul_of_pos_left _ (Nat.pos_of_ne_zero hn)
  simp only [hits, Bool.and_eq_true, decide_eq_true_eq, beq_iff_eq, Nat.mod_eq_of_lt hlt, Nat.div_eq_of_lt hlt]
  exact ⟨by omega, trivial⟩

variable (murmurHash3)

/-- `listEntries` on a table that holds the keys `S₀` with signs `σ`: it
returns, and when it reports success it has listed each key by its sign. -/
theorem listEntries_of_cellSum {t₀ T : CIblt} {σ : UInt64 → ℤ} {S₀ : Finset UInt64}
    (hp : Peelable murmurHash3 t₀ σ S₀) (hlay : layout T = layout t₀) (hnull : NullCells T)
    (hcells : ∀ idx, cellVal (T.cell idx) = cellSum murmurHash3 t₀ σ S₀ idx) (budget : Nat) :
    ∃ r, listEntries murmurHash3 T budget ∅ ∅ = some r ∧
      (r.1 = true → r.2.1 = (S₀.filter (σ · = 1)).image (·, []) ∧ r.2.2 = (S₀.filter (σ · = -1)).image (·, [])) := by
  have hmask : T.keycheckMask = t₀.keycheckMask := congrArg Layout.keycheckMask hlay
  have hnEq : T.n_hash = t₀.n_hash := congrArg Layout.n_hash hlay
  have hlenEq : T.hashTable.length = t₀.hashTable.length := congrArg Layout.size hlay
  have hinv₀ : PeelInv murmurHash3 t₀ σ S₀ S₀ ⟨T, ∅, ∅, 0⟩ :=
    ⟨subset_rfl, hlay, hnull, hcells, by simp, by simp⟩
  obtain ⟨⟨st, nTotal⟩, hloop, S, hinv⟩ := peelLoop_spec hp budget _ _ _ _ rfl hinv₀
  refine ⟨_, by rw [listEntries, hmask, hloop]; rfl, fun hdec => ?_⟩
  dsimp only at hdec
  have hlenT : st.peeled.hashTable.length = T.hashTable.length :=
    (congrArg Layout.size hinv.layout_eq).trans (congrArg Layout.size hlay).symm
  split_ifs at hdec with hn hb
  have hempty : S = ∅ := by
    rw [hlenT] at hb hdec
    apply Finset.eq_empty_of_forall_notMem
    intro k hk
    have hnT : t₀.n_hash ≠ 0 := by rwa [← hnEq]
    have hbT : bucketsPerHash t₀ ≠ 0 := by rwa [bucketsPerHash, ← hlenEq, ← hnEq]
    obtain ⟨hhit, hlt⟩ := hits_bucket_zero (t := t₀) hnT hbT k
    have hcell := (List.all_eq_true.mp hdec) (bucket murmurHash3 t₀ 0 k) (List.mem_range.mpr (by
      rwa [bucketsPerHash, ← hlenEq, ← hnEq] at hlt))
    rw [empty_iff, hinv.cells] at hcell
    have hσ : ∀ k ∈ S, σ k = 1 ∨ σ k = -1 := fun k hk => hp.sign k (hinv.subset hk)
    have hmem : k ∈ S.filter fun k' => hits murmurHash3 t₀ k' (bucket murmurHash3 t₀ 0 k) :=
      Finset.mem_filter.mpr ⟨hk, hhit⟩
    rcases cellSum_cases murmurHash3 t₀ hσ (bucket murmurHash3 t₀ 0 k) with ⟨h0, -⟩ | ⟨k', hk'S, -, hk'⟩ | hmulti
    · rw [h0] at hmem
      exact Finset.notMem_empty k hmem
    · rw [hk'] at hcell
      rcases hσ k' hk'S with h | h <;> simp [h] at hcell
    · exact (hp.noCoincidence S hinv.subset _ (lt_of_lt_of_le hlt (Nat.div_le_self _ _)) hmulti).2 hcell
  rw [hinv.positive, hinv.negative, hempty, Finset.sdiff_empty]
  exact ⟨rfl, rfl⟩

/-! ## Tables of two key sets -/

/-- A cell of `operator-` on `NullCell`s: the difference in `CellGroup`. -/
theorem subEntry_spec {m : Nat} {e1 e2 e : HashTableEntry} (h : subEntry m e1 e2 = some e) (h1 : NullCell m e1)
    (h2 : NullCell m e2) : cellVal e = cellVal e1 - cellVal e2 ∧ NullCell m e := by
  unfold subEntry checkedInt32 at h
  split_ifs at h with hrange
  · simp only [Option.bind_eq_bind, Option.bind_some, Option.pure_def, Option.some.injEq] at h
    subst h
    have hcheck : (e1.keyCheck ^^^ e2.keyCheck) &&& m.toUInt32 = e1.keyCheck ^^^ e2.keyCheck := by
      rw [xor_and_mask, h1.masked, h2.masked]
    refine ⟨?_, ⟨?_, ?_, hrange.1, hrange.2⟩⟩
    · simp only [cellVal, hcheck, Prod.mk_sub_mk]
      rfl
    · dsimp only
      rw [hcheck, hcheck]
    · split <;> simp [h1.null, h2.null, HashTableEntry.addValue]
  · cases h

theorem subEntry_default (m : Nat) : subEntry m default default = some default := by
  unfold subEntry checkedInt32
  rw [if_pos (by decide)]
  simp only [Option.bind_eq_bind, Option.bind_some, Option.pure_def, Option.some.injEq]
  simp [HashTableEntry.empty]
  rfl

theorem subCells_spec {m : Nat} :
    ∀ {l1 l2 l : List HashTableEntry}, subCells m l1 l2 = some l → l1.length = l2.length →
      l.length = l1.length ∧ ∀ i, subEntry m (l1.getD i default) (l2.getD i default) = some (l.getD i default)
  | [], [], l, h, _ => by
    cases h
    exact ⟨rfl, fun i => subEntry_default m⟩
  | e1 :: l1, e2 :: l2, l, h, hlen => by
    obtain ⟨e, he, h⟩ := Option.bind_eq_some_iff.mp h
    obtain ⟨l', hl', h⟩ := Option.bind_eq_some_iff.mp h
    cases h
    obtain ⟨hlen', hcells⟩ := subCells_spec hl' (Nat.succ.inj hlen)
    refine ⟨by rw [List.length_cons, List.length_cons, hlen'], fun i => ?_⟩
    cases i with
    | zero => exact he
    | succ i => exact hcells i

/-- `A - B` on tables of `NullCell`s with one mask: the cells subtract. -/
theorem sub_cells {A B T : CIblt} (h : A.sub B = some T) (hmask : B.keycheckMask = A.keycheckMask)
    (hA : NullCells A) (hB : NullCells B) :
    layout T = layout A ∧ NullCells T ∧ ∀ idx, cellVal (T.cell idx) = cellVal (A.cell idx) - cellVal (B.cell idx) := by
  unfold sub at h
  split_ifs at h with hlen
  obtain ⟨l, hl, h⟩ := Option.bind_eq_some_iff.mp h
  cases h
  obtain ⟨hlen', hcells⟩ := subCells_spec hl hlen
  have hspec : ∀ idx, cellVal (l.getD idx default) = cellVal (A.cell idx) - cellVal (B.cell idx) ∧
      NullCell A.keycheckMask (l.getD idx default) := fun idx =>
    subEntry_spec (hcells idx) (hA idx) (hmask ▸ hB idx)
  exact ⟨by rw [layout, layout, hlen'], fun idx => (hspec idx).2, fun idx => (hspec idx).1⟩

theorem keySign_ne_zero {P N : Finset UInt64} {k : UInt64} (h : keySign P N k ≠ 0) : k ∈ (P \ N) ∪ (N \ P) := by
  unfold keySign at h
  by_cases hP : k ∈ P <;> by_cases hN : k ∈ N <;> simp_all

theorem keySign_of_mem {P N : Finset UInt64} {k : UInt64} (h : k ∈ (P \ N) ∪ (N \ P)) :
    keySign P N k = 1 ∨ keySign P N k = -1 := by
  unfold keySign
  by_cases hP : k ∈ P <;> by_cases hN : k ∈ N <;> simp_all

/-- The keys listed positive and negative for the signs of `P` and `N`. -/
theorem filter_keySign (P N : Finset UInt64) :
    ((P \ N) ∪ (N \ P)).filter (keySign P N · = 1) = P \ N ∧
      ((P \ N) ∪ (N \ P)).filter (keySign P N · = -1) = N \ P := by
  constructor
  all_goals
    ext k
    rw [Finset.mem_filter]
    simp only [Finset.mem_union, Finset.mem_sdiff, keySign]
    by_cases hP : k ∈ P <;> by_cases hN : k ∈ N <;> simp [hP, hN]

/-- A table whose cells are a signed sum over a run with the net
multiplicities of `P` and `N` holds the keys of `P \ N` and `N \ P`. -/
theorem cellVal_eq_cellSum {t₀ : CIblt} {P N : Finset UInt64} {L : List (ℤ × UInt64)}
    (hnet : ∀ k, NetSum.net L k = keySign P N k) {v : CellGroup} (idx : Nat)
    (hv : v = (L.map fun o => o.1 • delta murmurHash3 t₀ idx o.2).sum) :
    v = cellSum murmurHash3 t₀ (keySign P N) ((P \ N) ∪ (N \ P)) idx := by
  rw [hv, NetSum.sum_zsmul_eq_sum_net _ L fun k hk => keySign_ne_zero (by rwa [← hnet k])]
  exact Finset.sum_congr rfl fun k _ => by rw [hnet k]

/-- The peeling of the keys of `P \ N` and `N \ P` with their signs. -/
theorem peelable_keySign {t₀ : CIblt} {P N : Finset UInt64} (hseed : Seeded t₀) (hcard : (P ∪ N).card < 2 ^ 31)
    (hnc : NoCoincidence murmurHash3 t₀ (keySign P N) ((P \ N) ∪ (N \ P))) :
    Peelable murmurHash3 t₀ (keySign P N) ((P \ N) ∪ (N \ P)) :=
  ⟨fun _ hk => keySign_of_mem hk, hnc,
    lt_of_le_of_lt (Finset.card_le_card (Finset.union_subset
      ((Finset.sdiff_subset).trans Finset.subset_union_left) ((Finset.sdiff_subset).trans Finset.subset_union_right)))
      hcard, hseed⟩

theorem listEntries_sound {t₀ : CIblt} (hfresh : Fresh t₀) (hseed : Seeded t₀) (budget : Nat) :
    (∀ {P N : Finset UInt64} {ops : List KeyOp} {T : CIblt}, (P ∪ N).card < 2 ^ 31 →
      NoCoincidence murmurHash3 t₀ (keySign P N) ((P \ N) ∪ (N \ P)) →
      (∀ k, NetSum.net (ops.map KeyOp.signed) k = keySign P N k) → runOps murmurHash3 t₀ ops = some T →
      ∃ r, listEntries murmurHash3 T budget ∅ ∅ = some r ∧
        (r.1 = true → r.2.1 = (P \ N).image (·, []) ∧ r.2.2 = (N \ P).image (·, []))) ∧
    (∀ {P N : Finset UInt64} {opsA opsB : List KeyOp} {t₀' A B T : CIblt}, layout t₀' = layout t₀ → Fresh t₀' →
      (P ∪ N).card < 2 ^ 31 → NoCoincidence murmurHash3 t₀ (keySign P N) ((P \ N) ∪ (N \ P)) →
      (∀ k, NetSum.net (opsA.map KeyOp.signed) k = if k ∈ P then 1 else 0) →
      (∀ k, NetSum.net (opsB.map KeyOp.signed) k = if k ∈ N then 1 else 0) →
      runOps murmurHash3 t₀ opsA = some A → runOps murmurHash3 t₀' opsB = some B → A.sub B = some T →
      ∃ r, listEntries murmurHash3 T budget ∅ ∅ = some r ∧
        (r.1 = true → r.2.1 = (P \ N).image (·, []) ∧ r.2.2 = (N \ P).image (·, []))) := by
  refine ⟨fun {P N ops T} hcard hnc hnet hT => ?_, fun {P N opsA opsB t₀' A B T} hlay' hfresh' hcard hnc hnetA hnetB hA hB hsub => ?_⟩
  · obtain ⟨hlay, hnull, -⟩ := runOps_cells murmurHash3 hT hfresh.nullCells
    obtain ⟨r, hr, hsound⟩ := listEntries_of_cellSum murmurHash3 (peelable_keySign murmurHash3 hseed hcard hnc) hlay hnull
      (fun idx => cellVal_eq_cellSum murmurHash3 hnet idx (runOps_cellVal_of_fresh murmurHash3 hT hfresh idx)) budget
    rw [(filter_keySign P N).1, (filter_keySign P N).2] at hsound
    exact ⟨r, hr, hsound⟩
  · obtain ⟨hlayA, hnullA, -⟩ := runOps_cells murmurHash3 hA hfresh.nullCells
    obtain ⟨hlayB, hnullB, -⟩ := runOps_cells murmurHash3 hB hfresh'.nullCells
    have hmask : B.keycheckMask = A.keycheckMask :=
      ((congrArg Layout.keycheckMask hlayB).trans (congrArg Layout.keycheckMask hlay')).trans
        (congrArg Layout.keycheckMask hlayA).symm
    obtain ⟨hlayT, hnullT, hvalT⟩ := sub_cells hsub hmask hnullA hnullB
    have hnet : ∀ k, NetSum.net (opsA.map KeyOp.signed ++ (opsB.map KeyOp.signed).map fun o => (-o.1, o.2)) k =
        keySign P N k := by
      intro k
      rw [NetSum.net_append, NetSum.net_map_neg, hnetA, hnetB, keySign, sub_eq_add_neg]
    have hcells : ∀ idx, cellVal (T.cell idx) = cellSum murmurHash3 t₀ (keySign P N) ((P \ N) ∪ (N \ P)) idx := by
      intro idx
      refine cellVal_eq_cellSum murmurHash3 hnet idx ?_
      rw [hvalT, runOps_cellVal_of_fresh murmurHash3 hA hfresh idx, runOps_cellVal_of_fresh murmurHash3 hB hfresh' idx,
        delta_congr murmurHash3 hlay', List.map_append, List.sum_append, NetSum.sum_zsmul_map_neg, sub_eq_add_neg]
    obtain ⟨r, hr, hsound⟩ := listEntries_of_cellSum murmurHash3 (peelable_keySign murmurHash3 hseed hcard hnc)
      (hlayT.trans hlayA) hnullT hcells budget
    rw [(filter_keySign P N).1, (filter_keySign P N).2] at hsound
    exact ⟨r, hr, hsound⟩

/-- A hash under which hash function 0 sends every key to the first bucket of
its block and hash function 1 sends a key by the parity of half its low byte,
so that the keys 5 and 7 share cell 0 and have cells 2 and 3 to themselves. -/
def sharedCellHash (seed : Nat) (kvec : List UInt8) : Nat := seed * ((kvec.headD 0).toNat / 2)

/-- A fresh table of two hash functions with two buckets each. -/
def twoByTwo : CIblt := ⟨0, 0, 2, false, maxChecksumMask, List.replicate 4 default, []⟩

/-- In the shared cell of 5 (inserted) and 7 (erased) the count is 0 and the
key sum is not. -/
theorem twoByTwo_noCoincidence :
    NoCoincidence sharedCellHash twoByTwo (keySign {5} {7})
      ((({5} : Finset UInt64) \ {7}) ∪ ({7} \ {5})) := by
  have hS : (({5} : Finset UInt64) \ {7}) ∪ ({7} \ {5}) = {5, 7} := by decide
  intro S' hS' idx hidx h2
  rw [hS, ← Finset.mem_powerset] at hS'
  have hlen : twoByTwo.hashTable.length = 4 := rfl
  rw [hlen] at hidx
  revert S' idx
  decide +kernel

/-- The keys 5, inserted, and 7, erased, share a cell: peeling lists 5 from
its own cell, which leaves 7 alone in the shared one, and succeeds. The same
keys in two tables subtracted. -/
theorem listEntries_sound_shared_cell :
    (∃ T, runOps sharedCellHash twoByTwo [.insert 5, .erase 7] = some T ∧
      listEntries sharedCellHash T 100 ∅ ∅ = some (true, {(5, [])}, {(7, [])}) ∧
      ∃ r, listEntries sharedCellHash T 100 ∅ ∅ = some r ∧
        (r.1 = true → r.2.1 = (({5} : Finset UInt64) \ {7}).image (·, []) ∧
          r.2.2 = (({7} : Finset UInt64) \ {5}).image (·, []))) ∧
    (∃ A B T, runOps sharedCellHash twoByTwo [.insert 5] = some A ∧
      runOps sharedCellHash twoByTwo [.insert 7] = some B ∧ A.sub B = some T ∧
      ∃ r, listEntries sharedCellHash T 100 ∅ ∅ = some r ∧
        (r.1 = true → r.2.1 = (({5} : Finset UInt64) \ {7}).image (·, []) ∧
          r.2.2 = (({7} : Finset UInt64) \ {5}).image (·, []))) := by
  have hfresh : Fresh twoByTwo := Fresh.of_forall fun _ he => List.eq_of_mem_replicate he
  have hseed : Seeded twoByTwo := fun h => absurd h (by decide)
  have hnet : ∀ k, NetSum.net ([KeyOp.insert 5, .erase 7].map KeyOp.signed) k = keySign {5} {7} k := by
    intro k
    by_cases h5 : k = 5 <;> by_cases h7 : k = 7 <;>
      simp [NetSum.net_cons, KeyOp.signed, keySign, h5, h7, eq_comm]
  have hnetA : ∀ k, NetSum.net ([KeyOp.insert 5].map KeyOp.signed) k = if k ∈ ({5} : Finset UInt64) then 1 else 0 := by
    intro k
    by_cases hk : k = 5 <;> simp [NetSum.net_cons, KeyOp.signed, hk, eq_comm]
  have hnetB : ∀ k, NetSum.net ([KeyOp.insert 7].map KeyOp.signed) k = if k ∈ ({7} : Finset UInt64) then 1 else 0 := by
    intro k
    by_cases hk : k = 7 <;> simp [NetSum.net_cons, KeyOp.signed, hk, eq_comm]
  obtain ⟨T, hT, hlist⟩ : ∃ T, runOps sharedCellHash twoByTwo [.insert 5, .erase 7] = some T ∧
      listEntries sharedCellHash T 100 ∅ ∅ = some (true, {(5, [])}, {(7, [])}) :=
    ⟨_, rfl, by decide +kernel⟩
  obtain ⟨A, B, D, hA, hB, hD⟩ : ∃ A B D, runOps sharedCellHash twoByTwo [.insert 5] = some A ∧
      runOps sharedCellHash twoByTwo [.insert 7] = some B ∧ A.sub B = some D := ⟨_, _, _, rfl, rfl, rfl⟩
  refine ⟨⟨T, hT, hlist, (listEntries_sound _ hfresh hseed 100).1 (by decide) twoByTwo_noCoincidence hnet hT⟩,
    ⟨A, B, D, hA, hB, hD, (listEntries_sound _ hfresh hseed 100).2 rfl hfresh (by decide)
      twoByTwo_noCoincidence hnetA hnetB hA hB hD⟩⟩

end CIblt

end Membercoin
