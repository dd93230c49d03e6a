import Membercoin.Lib.Worklist

/-!
# Ancestors of a mempool entry (txmempool.cpp)

`_CalculateMemPoolAncestors` collects the in-pool ancestors of an entry with a
worklist, `parentHashes`, and checks the count and total size limits as it
goes. It erases the staged entry only at the end of its round, so during the
round that entry is counted both in `parentHashes` and in `setAncestors`,
and the test `parentHashes.size() + setAncestors.size() > limit` counts the
ancestors found plus the entry itself.

The loop state between rounds is `AncestorSearch`, whose fields keep the
worklist inside the pool and apart from the ancestors found; a round either
moves the staged entry to the ancestors or, when it is in the block being
built, drops it, so the loop terminates. With the links agreeing with the
inputs:

* `calculateAncestorsLoop_ok` and `calculateAncestorsLoop_error`: an accepted
  search returns the ancestors outside the block within both limits, and a
  refused one has met a set of ancestors beyond one of them;
* for admission (the parents searched among the inputs, no block) the call
  is accepted exactly when the ancestors and the entry fit the count and
  their sizes fit the size limit, except that no size is checked when there
  are no ancestors; for the miner (links, a block closed under ancestry, no
  limits) it returns the ancestors outside the block.
-/

namespace Membercoin

/-- The fields of `CTxMemPool` that `_CalculateMemPoolAncestors` reads, with a
transaction named by its hash: the entries of `mapTx`, the in-pool parents
that `mapLinks` keeps, the transactions each one's inputs spend, and the
sizes. The links stay inside the pool. -/
structure CTxMemPool (E : Type) where
  mapTx : Finset E
  parents : E → Finset E
  prevouts : E → List E
  txSize : E → Nat
  parents_subset : ∀ x, parents x ⊆ mapTx

/-- The error strings of `_CalculateMemPoolAncestors`, with the numbers they
print. -/
inductive AncestorError where
  /-- "too many unconfirmed parents: %u [limit: %u]" -/
  | tooManyParents (parents limit : Nat)
  /-- " %u exceeds ancestor size limit [limit: %u]" -/
  | sizeLimit (total limit : Nat)
  /-- "too many unconfirmed ancestors (%u+%u) [limit: %u]" -/
  | tooManyAncestors (parents ancestors limit : Nat)
  deriving DecidableEq, Repr

section Calculate

variable {E : Type} [LinearOrder E] (m : CTxMemPool E)

/-- The search for parents among the inputs: the transaction each input spends
joins `parentHashes` when it is in the pool, and the count is checked as the
set grows. -/
def searchForParents (limitAncestorCount : Nat) :
    List E → Finset E → Except (AncestorError × Finset E) (Finset E)
  | [], parentHashes => .ok parentHashes
  | hash :: vin, parentHashes =>
    if hash ∈ m.mapTx then
      if (insert hash parentHashes).card + 1 > limitAncestorCount then
        .error (.tooManyParents (insert hash parentHashes).card limitAncestorCount, ∅)
      else searchForParents limitAncestorCount vin (insert hash parentHashes)
    else searchForParents limitAncestorCount vin parentHashes

/-- The loop over the parents of the staged entry: each one not yet an
ancestor joins `parentHashes`, and the count is checked after each. On
failure `parentHashes` is added to the ancestors. -/
def visitParents (limitAncestorCount : Nat) (setAncestors : Finset E) :
    List E → Finset E → Except (AncestorError × Finset E) (Finset E)
  | [], parentHashes => .ok parentHashes
  | phash :: setMemPoolParents, parentHashes =>
    let parentHashes := if phash ∈ setAncestors then parentHashes else insert phash parentHashes
    if parentHashes.card + setAncestors.card > limitAncestorCount then
      .error (.tooManyAncestors parentHashes.card (setAncestors ∪ parentHashes).card limitAncestorCount,
        setAncestors ∪ parentHashes)
    else visitParents limitAncestorCount setAncestors setMemPoolParents parentHashes

/-- The state of the main loop between rounds. The worklist stays in the pool
and apart from the ancestors found. -/
structure AncestorSearch where
  parentHashes : Finset E
  setAncestors : Finset E
  totalSizeWithAncestors : Nat
  parentHashes_subset : parentHashes ⊆ m.mapTx
  disjoint : Disjoint parentHashes setAncestors

/-- `inBlock->count(stageit)`, with no block counting nothing. -/
def inBlockHas (inBlock : Option (Finset E)) (x : E) : Bool :=
  inBlock.any fun blk => decide (x ∈ blk)

variable {m}

theorem searchForParents_ok_eq {limitAncestorCount : Nat} :
    ∀ {vin : List E} {parentHashes parentHashes' : Finset E},
      searchForParents m limitAncestorCount vin parentHashes = .ok parentHashes' →
        parentHashes' = parentHashes ∪ vin.toFinset.filter (· ∈ m.mapTx)
  | [], _, _, h => by
    cases h
    simp
  | hash :: vin, parentHashes, parentHashes', h => by
    unfold searchForParents at h
    by_cases hmem : hash ∈ m.mapTx
    · rw [if_pos hmem] at h
      split_ifs at h
      rw [searchForParents_ok_eq h]
      ext x
      by_cases hx : x = hash
      · subst hx
        simp [hmem]
      · simp [hx]
    · rw [if_neg hmem] at h
      rw [searchForParents_ok_eq h]
      ext x
      by_cases hx : x = hash
      · subst hx
        simp [hmem]
      · simp [hx]

theorem visitParents_ok_eq {limitAncestorCount : Nat} {setAncestors : Finset E} :
    ∀ {setMemPoolParents : List E} {parentHashes parentHashes' : Finset E},
      visitParents limitAncestorCount setAncestors setMemPoolParents parentHashes = .ok parentHashes' →
        parentHashes' = parentHashes ∪ setMemPoolParents.toFinset.filter (· ∉ setAncestors)
  | [], _, _, h => by
    cases h
    simp
  | phash :: setMemPoolParents, parentHashes, parentHashes', h => by
    unfold visitParents at h
    dsimp only at h
    split_ifs at h with hS
    · rw [visitParents_ok_eq h]
      ext x
      by_cases hx : x = phash
      · subst hx
        simp [hS]
      · simp [hx]
    · rw [visitParents_ok_eq h]
      ext x
      by_cases hx : x = phash
      · subst hx
        simp [hS]
      · simp [hx]

/-- After the visit, the worklist without the staged entry stays in the pool. -/
theorem erase_subset_of_visitParents {limitAncestorCount : Nat} {setAncestors parentHashes parentHashes' : Finset E}
    {stageit : E} (hsub : parentHashes ⊆ m.mapTx)
    (hv : visitParents limitAncestorCount setAncestors ((m.parents stageit).sort (· ≤ ·)) parentHashes =
      .ok parentHashes') : parentHashes'.erase stageit ⊆ m.mapTx := by
  rw [visitParents_ok_eq hv]
  intro x hx
  simp only [Finset.mem_erase, Finset.mem_union, Finset.mem_filter, List.mem_toFinset, Finset.mem_sort] at hx
  rcases hx.2 with hx | ⟨hx, -⟩
  · exact hsub hx
  · exact m.parents_subset stageit hx

/-- After the visit, the worklist without the staged entry is apart from the
ancestors with the staged entry. -/
theorem disjoint_of_visitParents {limitAncestorCount : Nat} {setAncestors parentHashes parentHashes' : Finset E}
    {stageit : E} {setMemPoolParents : List E} (hdisj : Disjoint parentHashes setAncestors)
    (hv : visitParents limitAncestorCount (insert stageit setAncestors) setMemPoolParents parentHashes =
      .ok parentHashes') : Disjoint (parentHashes'.erase stageit) (insert stageit setAncestors) := by
  rw [visitParents_ok_eq hv, Finset.disjoint_left]
  intro x hx hxS
  simp only [Finset.mem_erase, Finset.mem_union, Finset.mem_filter, List.mem_toFinset] at hx
  rcases Finset.mem_insert.mp hxS with rfl | hxS
  · exact hx.1 rfl
  · rcases hx.2 with hx | ⟨-, hxS'⟩
    · exact Finset.disjoint_left.mp hdisj hx hxS
    · exact hxS' (Finset.mem_insert_of_mem hxS)

/-- The parents the search starts from are in the pool. -/
theorem parentHashes_subset_of_ok {limitAncestorCount : Nat} {fSearchForParents : Bool} {entry : E}
    {parentHashes : Finset E}
    (hp : (if fSearchForParents then searchForParents m limitAncestorCount (m.prevouts entry) ∅
      else .ok (m.parents entry)) = .ok parentHashes) : parentHashes ⊆ m.mapTx := by
  split at hp
  · rw [searchForParents_ok_eq hp]
    intro x hx
    simp only [Finset.empty_union, Finset.mem_filter] at hx
    exact hx.2
  · cases hp
    exact m.parents_subset entry

/-- The worklist without the staged entry, which is in the block already. -/
def AncestorSearch.drop (st : AncestorSearch m) (stageit : E) : AncestorSearch m :=
  ⟨st.parentHashes.erase stageit, st.setAncestors, st.totalSizeWithAncestors,
    (Finset.erase_subset _ _).trans st.parentHashes_subset,
    Finset.disjoint_of_subset_left (Finset.erase_subset _ _) st.disjoint⟩

/-- The state after a round that took the staged entry as an ancestor, added
its size and visited its parents. -/
def AncestorSearch.take (st : AncestorSearch m) (stageit : E) {limitAncestorCount : Nat}
    {parentHashes : Finset E}
    (hv : visitParents limitAncestorCount (insert stageit st.setAncestors) ((m.parents stageit).sort (· ≤ ·))
      st.parentHashes = .ok parentHashes) : AncestorSearch m :=
  ⟨parentHashes.erase stageit, insert stageit st.setAncestors, st.totalSizeWithAncestors + m.txSize stageit,
    erase_subset_of_visitParents st.parentHashes_subset hv, disjoint_of_visitParents st.disjoint hv⟩

variable (m)

/-- The rounds of `_CalculateMemPoolAncestors`. A round stages the first entry
of the worklist; one already in the block is dropped, any other becomes an
ancestor, its size is added and checked, and its parents are visited. -/
def calculateAncestorsLoop (limitAncestorCount limitAncestorSize : Nat) (inBlock : Option (Finset E))
    (st : AncestorSearch m) : Except (AncestorError × Finset E) (Finset E) :=
  if hne : st.parentHashes.Nonempty then
    let stageit := st.parentHashes.min' hne
    if inBlockHas inBlock stageit then
      calculateAncestorsLoop limitAncestorCount limitAncestorSize inBlock (st.drop stageit)
    else
      let setAncestors := insert stageit st.setAncestors
      let totalSizeWithAncestors := st.totalSizeWithAncestors + m.txSize stageit
      if totalSizeWithAncestors > limitAncestorSize then
        .error (.sizeLimit totalSizeWithAncestors limitAncestorSize, setAncestors)
      else
        match hv : visitParents limitAncestorCount setAncestors ((m.parents stageit).sort (· ≤ ·))
            st.parentHashes with
        | .error e => .error e
        | .ok _ => calculateAncestorsLoop limitAncestorCount limitAncestorSize inBlock (st.take stageit hv)
  else .ok st.setAncestors
termination_by ((m.mapTx \ st.setAncestors).card, st.parentHashes.card)
decreasing_by
  · -- dropping the staged entry shortens the worklist
    exact Prod.Lex.right _ (Finset.card_erase_lt_of_mem (Finset.min'_mem _ _))
  · -- taking an entry of the pool that was no ancestor yet
    dsimp only [AncestorSearch.take]
    have hmem := Finset.min'_mem _ hne
    have hnot : st.parentHashes.min' hne ∉ st.setAncestors := Finset.disjoint_left.mp st.disjoint hmem
    apply Prod.Lex.left
    apply Finset.card_lt_card
    rw [Finset.ssubset_iff_of_subset (Finset.sdiff_subset_sdiff le_rfl (Finset.subset_insert _ _))]
    exact ⟨_, Finset.mem_sdiff.mpr ⟨st.parentHashes_subset hmem, hnot⟩,
      fun h => (Finset.mem_sdiff.mp h).2 (Finset.mem_insert_self _ _)⟩

/-- `_CalculateMemPoolAncestors` for `entry`, from the empty `setAncestors`:
the parents are searched among the inputs, or read from the links of an
entry already in the pool. -/
def calculateMemPoolAncestors (entry : E) (limitAncestorCount limitAncestorSize : Nat)
    (inBlock : Option (Finset E)) (fSearchForParents : Bool) : Except (AncestorError × Finset E) (Finset E) :=
  match hp : (if fSearchForParents then searchForParents m limitAncestorCount (m.prevouts entry) ∅
      else .ok (m.parents entry)) with
  | .error e => .error e
  | .ok parentHashes =>
    calculateAncestorsLoop m limitAncestorCount limitAncestorSize inBlock
      ⟨parentHashes, ∅, m.txSize entry, parentHashes_subset_of_ok hp, Finset.disjoint_empty_right _⟩

end Calculate

/-! ## The ancestors as a closure -/

section Spec

variable {E : Type} (m : CTxMemPool E)

/-- `y` is an in-pool parent of `x`: an entry of the pool that an input of
`x` spends. -/
def ParentOf (x y : E) : Prop := y ∈ m.mapTx ∧ y ∈ m.prevouts x

/-- The links of the pool agree with the inputs of its entries. -/
def LinksAgree : Prop := ∀ x ∈ m.mapTx, ∀ y, y ∈ m.parents x ↔ ParentOf m x y

/-- The in-pool ancestors of `x`: the transitive closure of the in-pool
parents. -/
noncomputable def inPoolAncestors (x : E) : Finset E := by
  classical exact m.mapTx.filter fun y => Relation.TransGen (ParentOf m) x y

variable {m}

theorem mem_inPoolAncestors {x y : E} :
    y ∈ inPoolAncestors m x ↔ y ∈ m.mapTx ∧ Relation.TransGen (ParentOf m) x y := by
  classical
  unfold inPoolAncestors
  convert Finset.mem_filter

theorem inPoolAncestors_subset (x : E) : inPoolAncestors m x ⊆ m.mapTx :=
  fun _ hy => (mem_inPoolAncestors.1 hy).1

/-- A parent of an ancestor is an ancestor. -/
theorem mem_inPoolAncestors_of_parent {e x y : E} (hx : x ∈ inPoolAncestors m e) (hy : ParentOf m x y) :
    y ∈ inPoolAncestors m e :=
  mem_inPoolAncestors.2 ⟨hy.1, (mem_inPoolAncestors.1 hx).2.tail hy⟩

theorem mem_inPoolAncestors_of_parentOf {e y : E} (hy : ParentOf m e y) : y ∈ inPoolAncestors m e :=
  mem_inPoolAncestors.2 ⟨hy.1, .single hy⟩

end Spec

/-! ## The search finds the ancestors -/

section Search

variable {E : Type} [LinearOrder E] {m : CTxMemPool E}

/-- What holds between rounds of the search for the ancestors of `e` outside
a block `K`: what was found are ancestors, those taken are outside the block,
the parents of `e` and of the ancestors taken were found or are in the block,
the total is the size of `e` and of the ancestors taken, and the limits have
held so far. -/
structure SearchInv (e : E) (K : Finset E) (limitAncestorCount limitAncestorSize : Nat)
    (st : AncestorSearch m) : Prop where
  found : st.parentHashes ∪ st.setAncestors ⊆ inPoolAncestors m e
  outside : Disjoint st.setAncestors K
  start_closed : ∀ y, ParentOf m e y → y ∈ st.parentHashes ∨ y ∈ st.setAncestors ∨ y ∈ K
  step_closed : ∀ x ∈ st.setAncestors, ∀ y, ParentOf m x y →
    y ∈ st.parentHashes ∨ y ∈ st.setAncestors ∨ y ∈ K
  total : st.totalSizeWithAncestors = m.txSize e + ∑ x ∈ st.setAncestors, m.txSize x
  count : (st.parentHashes ∪ st.setAncestors).card + 1 ≤ limitAncestorCount
  size : st.setAncestors = ∅ ∨ st.totalSizeWithAncestors ≤ limitAncestorSize

variable {e : E} {K : Finset E} {limitAncestorCount limitAncestorSize : Nat}

/-- The count test of the visit keeps the count of both sets within the limit. -/
theorem visitParents_card {setAncestors : Finset E} :
    ∀ {setMemPoolParents : List E} {parentHashes parentHashes' : Finset E},
      parentHashes.card + setAncestors.card ≤ limitAncestorCount →
      visitParents limitAncestorCount setAncestors setMemPoolParents parentHashes = .ok parentHashes' →
        parentHashes'.card + setAncestors.card ≤ limitAncestorCount
  | [], _, _, h0, h => by
    cases h
    exact h0
  | phash :: setMemPoolParents, parentHashes, parentHashes', h0, h => by
    unfold visitParents at h
    dsimp only at h
    split_ifs at h with hS hcount hcount
    · exact visitParents_card (by omega) h
    · exact visitParents_card (by omega) h

/-- A refused visit met some parents not yet ancestors with which the count
passed the limit. -/
theorem visitParents_error {setAncestors : Finset E} :
    ∀ {setMemPoolParents : List E} {parentHashes : Finset E} {err : AncestorError × Finset E},
      visitParents limitAncestorCount setAncestors setMemPoolParents parentHashes = .error err →
        ∃ N : Finset E, (∀ x ∈ N, x ∈ setMemPoolParents ∧ x ∉ setAncestors) ∧
          limitAncestorCount < (parentHashes ∪ N).card + setAncestors.card
  | [], _, _, h => by cases h
  | phash :: setMemPoolParents, parentHashes, err, h => by
    unfold visitParents at h
    dsimp only at h
    by_cases hS : phash ∈ setAncestors
    · rw [if_pos hS] at h
      split_ifs at h with hcount
      · exact ⟨∅, by simp, by simpa using hcount⟩
      · obtain ⟨N, hN, hlt⟩ := visitParents_error h
        exact ⟨N, fun x hx => ⟨List.mem_cons_of_mem _ (hN x hx).1, (hN x hx).2⟩, hlt⟩
    · rw [if_neg hS] at h
      split_ifs at h with hcount
      · refine ⟨{phash}, by simp [hS], ?_⟩
        rwa [Finset.union_singleton]
      · obtain ⟨N, hN, hlt⟩ := visitParents_error h
        refine ⟨insert phash N, ?_, ?_⟩
        · intro x hx
          rcases Finset.mem_insert.mp hx with rfl | hx
          · exact ⟨List.mem_cons_self, hS⟩
          · exact ⟨List.mem_cons_of_mem _ (hN x hx).1, (hN x hx).2⟩
        · rwa [Finset.union_insert, ← Finset.insert_union]

/-- The count test of the search among the inputs keeps the count within the
limit. -/
theorem searchForParents_card :
    ∀ {vin : List E} {parentHashes parentHashes' : Finset E},
      parentHashes.card + 1 ≤ limitAncestorCount →
      searchForParents m limitAncestorCount vin parentHashes = .ok parentHashes' →
        parentHashes'.card + 1 ≤ limitAncestorCount
  | [], _, _, h0, h => by
    cases h
    exact h0
  | hash :: vin, parentHashes, parentHashes', h0, h => by
    unfold searchForParents at h
    split_ifs at h with hmem hcount
    · exact searchForParents_card (by omega) h
    · exact searchForParents_card h0 h

/-- A refused search met parents in the pool beyond the count. -/
theorem searchForParents_error :
    ∀ {vin : List E} {parentHashes : Finset E} {err : AncestorError × Finset E},
      searchForParents m limitAncestorCount vin parentHashes = .error err →
        ∃ N : Finset E, (∀ x ∈ N, x ∈ vin ∧ x ∈ m.mapTx) ∧ limitAncestorCount < (parentHashes ∪ N).card + 1
  | [], _, _, h => by cases h
  | hash :: vin, parentHashes, err, h => by
    unfold searchForParents at h
    split_ifs at h with hmem hcount
    · exact ⟨{hash}, by simp [hmem], by rwa [Finset.union_singleton]⟩
    · obtain ⟨N, hN, hlt⟩ := searchForParents_error h
      refine ⟨insert hash N, ?_, by rwa [Finset.union_insert, ← Finset.insert_union]⟩
      intro x hx
      rcases Finset.mem_insert.mp hx with rfl | hx
      · exact ⟨List.mem_cons_self, hmem⟩
      · exact ⟨List.mem_cons_of_mem _ (hN x hx).1, (hN x hx).2⟩
    · obtain ⟨N, hN, hlt⟩ := searchForParents_error h
      exact ⟨N, fun x hx => ⟨List.mem_cons_of_mem _ (hN x hx).1, (hN x hx).2⟩, hlt⟩

/-- Dropping a staged entry that is in the block keeps the invariant. -/
theorem SearchInv.drop {st : AncestorSearch m} (hinv : SearchInv e K limitAncestorCount limitAncestorSize st)
    {stageit : E} (hK : stageit ∈ K) :
    SearchInv e K limitAncestorCount limitAncestorSize (st.drop stageit) := by
  have hmove : ∀ y, y ∈ st.parentHashes ∨ y ∈ st.setAncestors ∨ y ∈ K →
      y ∈ st.parentHashes.erase stageit ∨ y ∈ st.setAncestors ∨ y ∈ K := by
    rintro y (hy | hy | hy)
    · by_cases hys : y = stageit
      · exact .inr (.inr (hys ▸ hK))
      · exact .inl (Finset.mem_erase.mpr ⟨hys, hy⟩)
    · exact .inr (.inl hy)
    · exact .inr (.inr hy)
  refine ⟨?_, hinv.outside, fun y hy => hmove y (hinv.start_closed y hy),
    fun x hx y hy => hmove y (hinv.step_closed x hx y hy), hinv.total, ?_, hinv.size⟩
  · exact (Finset.union_subset_union (Finset.erase_subset _ _) le_rfl).trans hinv.found
  · have := Finset.card_le_card (Finset.union_subset_union (Finset.erase_subset stageit st.parentHashes)
      (le_refl st.setAncestors))
    exact (Nat.add_le_add_right this 1).trans hinv.count

/-- Taking a staged entry outside the block as an ancestor, within the size
limit, keeps the invariant: its parents are found, and the entry counted in
both sets during the visit makes the count exact. -/
theorem SearchInv.take (hlinks : LinksAgree m) {st : AncestorSearch m}
    (hinv : SearchInv e K limitAncestorCount limitAncestorSize st) {stageit : E}
    (hstage : stageit ∈ st.parentHashes) (hK : stageit ∉ K)
    (hsize : ¬st.totalSizeWithAncestors + m.txSize stageit > limitAncestorSize) {parentHashes : Finset E}
    (hv : visitParents limitAncestorCount (insert stageit st.setAncestors) ((m.parents stageit).sort (· ≤ ·))
      st.parentHashes = .ok parentHashes) :
    SearchInv e K limitAncestorCount limitAncestorSize (st.take stageit hv) := by
  have hnotS : stageit ∉ st.setAncestors := Finset.disjoint_left.mp st.disjoint hstage
  have hA : stageit ∈ inPoolAncestors m e := hinv.found (Finset.mem_union_left _ hstage)
  have hlink := hlinks stageit (inPoolAncestors_subset e hA)
  have hmem : ∀ y, y ∈ parentHashes ↔
      y ∈ st.parentHashes ∨ (ParentOf m stageit y ∧ y ∉ insert stageit st.setAncestors) := by
    intro y
    rw [visitParents_ok_eq hv]
    simp [hlink]
  have hkeep : ∀ y, y ∈ st.parentHashes ∨ y ∈ st.setAncestors ∨ y ∈ K →
      y ∈ parentHashes.erase stageit ∨ y ∈ insert stageit st.setAncestors ∨ y ∈ K := by
    rintro y (hy | hy | hy)
    · by_cases hys : y = stageit
      · exact .inr (.inl (hys ▸ Finset.mem_insert_self _ _))
      · exact .inl (Finset.mem_erase.mpr ⟨hys, (hmem y).mpr (.inl hy)⟩)
    · exact .inr (.inl (Finset.mem_insert_of_mem hy))
    · exact .inr (.inr hy)
  refine ⟨?_, ?_, fun y hy => hkeep y (hinv.start_closed y hy), ?_, ?_, ?_, ?_⟩
  · intro y hy
    rcases Finset.mem_union.mp hy with hy | hy
    · rcases (hmem y).mp (Finset.mem_of_mem_erase hy) with hy | ⟨hpar, -⟩
      · exact hinv.found (Finset.mem_union_left _ hy)
      · exact mem_inPoolAncestors_of_parent hA hpar
    · rcases Finset.mem_insert.mp hy with rfl | hy
      · exact hA
      · exact hinv.found (Finset.mem_union_right _ hy)
  · exact Finset.disjoint_insert_left.mpr ⟨hK, hinv.outside⟩
  · intro x hx y hy
    rcases Finset.mem_insert.mp hx with rfl | hx
    · by_cases hyS : y ∈ insert x st.setAncestors
      · exact .inr (.inl hyS)
      · have hyx : y ≠ x := fun h => hyS (h ▸ Finset.mem_insert_self _ _)
        exact .inl (Finset.mem_erase.mpr ⟨hyx, (hmem y).mpr (.inr ⟨hy, hyS⟩)⟩)
    · exact hkeep y (hinv.step_closed x hx y hy)
  · show st.totalSizeWithAncestors + m.txSize stageit =
      m.txSize e + ∑ x ∈ insert stageit st.setAncestors, m.txSize x
    rw [Finset.sum_insert hnotS, hinv.total]
    omega
  · show (parentHashes.erase stageit ∪ insert stageit st.setAncestors).card + 1 ≤ limitAncestorCount
    have hstart : st.parentHashes.card + (insert stageit st.setAncestors).card ≤ limitAncestorCount := by
      rw [Finset.card_insert_of_notMem hnotS]
      have := Finset.card_union_of_disjoint st.disjoint
      have := hinv.count
      omega
    have hvisit := visitParents_card hstart hv
    have hunion : parentHashes.erase stageit ∪ insert stageit st.setAncestors =
        parentHashes ∪ insert stageit st.setAncestors := by
      ext y
      by_cases hy : y = stageit
      · subst hy
        simp
      · simp [hy]
    have hinter : 1 ≤ (parentHashes ∩ insert stageit st.setAncestors).card :=
      Finset.card_pos.mpr ⟨stageit, Finset.mem_inter.mpr ⟨(hmem stageit).mpr (.inl hstage),
        Finset.mem_insert_self _ _⟩⟩
    have := Finset.card_union_add_card_inter parentHashes (insert stageit st.setAncestors)
    rw [hunion]
    omega
  · exact .inr (by show st.totalSizeWithAncestors + m.txSize stageit ≤ limitAncestorSize; omega)

/-- When the worklist is empty, the ancestors taken are all the ancestors
outside a block closed under ancestry. -/
theorem SearchInv.done {st : AncestorSearch m} (hinv : SearchInv e K limitAncestorCount limitAncestorSize st)
    (hclosed : ∀ x ∈ K, ∀ y, ParentOf m x y → y ∈ K) (hempty : st.parentHashes = ∅) :
    st.setAncestors = inPoolAncestors m e \ K := by
  ext y
  constructor
  · intro hy
    exact Finset.mem_sdiff.mpr ⟨hinv.found (Finset.mem_union_right _ hy),
      Finset.disjoint_left.mp hinv.outside hy⟩
  · intro hy
    obtain ⟨hyA, hyK⟩ := Finset.mem_sdiff.mp hy
    have hstart : ∀ z, ParentOf m e z → z ∈ st.setAncestors ∨ z ∈ K := fun z hz => by
      simpa [hempty] using hinv.start_closed z hz
    have hstep : ∀ x, x ∈ st.setAncestors → ∀ z, ParentOf m x z → z ∈ st.setAncestors ∨ z ∈ K :=
      fun x hx z hz => by simpa [hempty] using hinv.step_closed x hx z hz
    exact Worklist.transGen_mem_of_closed hstart hstep hclosed (mem_inPoolAncestors.1 hyA).2 hyK

variable {inBlock : Option (Finset E)}

/-- An accepted search returns the ancestors outside the block, within both
limits. -/
theorem calculateAncestorsLoop_ok (hlinks : LinksAgree m) (hclosed : ∀ x ∈ K, ∀ y, ParentOf m x y → y ∈ K)
    (hin : ∀ x, inBlockHas inBlock x = decide (x ∈ K)) :
    ∀ (st : AncestorSearch m), SearchInv e K limitAncestorCount limitAncestorSize st →
      ∀ S, calculateAncestorsLoop m limitAncestorCount limitAncestorSize inBlock st = .ok S →
        S = inPoolAncestors m e \ K ∧ S.card + 1 ≤ limitAncestorCount ∧
          (S = ∅ ∨ m.txSize e + ∑ x ∈ S, m.txSize x ≤ limitAncestorSize) := by
  intro st
  induction st using calculateAncestorsLoop.induct m limitAncestorCount limitAncestorSize inBlock with
  | case1 st hne stageit hblock ih =>
    intro hinv S h
    rw [calculateAncestorsLoop, dif_pos hne, if_pos hblock] at h
    exact ih (hinv.drop (by simpa [hin] using hblock)) S h
  | case2 st hne stageit hblock total hsize =>
    intro hinv S h
    rw [calculateAncestorsLoop, dif_pos hne, if_neg hblock, if_pos hsize] at h
    cases h
  | case3 st hne stageit hblock setAncestors total hsize err hv =>
    intro hinv S h
    rw [calculateAncestorsLoop, dif_pos hne, if_neg hblock, if_neg hsize] at h
    split at h
    · cases h
    · rename_i hv'
      rw [hv] at hv'
      cases hv'
  | case4 st hne stageit hblock setAncestors total hsize parentHashes hv ih =>
    intro hinv S h
    rw [calculateAncestorsLoop, dif_pos hne, if_neg hblock, if_neg hsize] at h
    split at h
    · rename_i hv'
      rw [hv] at hv'
      cases hv'
    · rename_i parentHashes' hv'
      rw [hv] at hv'
      cases hv'
      exact ih (hinv.take hlinks (Finset.min'_mem _ hne) (by simpa [hin] using hblock) hsize hv) S h
  | case5 st hne =>
    intro hinv S h
    rw [calculateAncestorsLoop, dif_neg hne] at h
    cases h
    have hempty := Finset.not_nonempty_iff_eq_empty.mp hne
    refine ⟨hinv.done hclosed hempty, ?_, ?_⟩
    · simpa [hempty] using hinv.count
    · rw [← hinv.total]
      exact hinv.size

/-- A refused search has met ancestors beyond the count, or ancestors whose
sizes with that of the entry pass the size limit. -/
theorem calculateAncestorsLoop_error (hlinks : LinksAgree m) (hin : ∀ x, inBlockHas inBlock x = decide (x ∈ K)) :
    ∀ (st : AncestorSearch m), SearchInv e K limitAncestorCount limitAncestorSize st →
      ∀ err, calculateAncestorsLoop m limitAncestorCount limitAncestorSize inBlock st = .error err →
        (∃ D ⊆ inPoolAncestors m e, limitAncestorCount < D.card + 1) ∨
          (∃ T ⊆ inPoolAncestors m e, T.Nonempty ∧ limitAncestorSize < m.txSize e + ∑ x ∈ T, m.txSize x) := by
  intro st
  induction st using calculateAncestorsLoop.induct m limitAncestorCount limitAncestorSize inBlock with
  | case1 st hne stageit hblock ih =>
    intro hinv err h
    rw [calculateAncestorsLoop, dif_pos hne, if_pos hblock] at h
    exact ih (hinv.drop (by simpa [hin] using hblock)) err h
  | case2 st hne stageit hblock total hsize =>
    intro hinv err h
    have hstage := Finset.min'_mem _ hne
    have hnotS : st.parentHashes.min' hne ∉ st.setAncestors := Finset.disjoint_left.mp st.disjoint hstage
    refine .inr ⟨insert (st.parentHashes.min' hne) st.setAncestors, ?_, Finset.insert_nonempty _ _, ?_⟩
    · exact Finset.insert_subset (hinv.found (Finset.mem_union_left _ hstage))
        ((Finset.subset_union_right).trans hinv.found)
    · rw [Finset.sum_insert hnotS]
      have := hinv.total
      simp only [total, stageit, gt_iff_lt] at hsize
      omega
  | case3 st hne stageit hblock setAncestors total hsize err hv =>
    intro hinv err' h
    have hstage := Finset.min'_mem _ hne
    have hA : st.parentHashes.min' hne ∈ inPoolAncestors m e := hinv.found (Finset.mem_union_left _ hstage)
    have hlink := hlinks _ (inPoolAncestors_subset e hA)
    obtain ⟨N, hN, hlt⟩ := visitParents_error hv
    simp only [setAncestors, stageit] at hN hlt
    refine .inl ⟨(st.parentHashes ∪ N) ∪ insert (st.parentHashes.min' hne) st.setAncestors, ?_, ?_⟩
    · refine Finset.union_subset (Finset.union_subset ((Finset.subset_union_left).trans hinv.found) ?_)
        (Finset.insert_subset hA ((Finset.subset_union_right).trans hinv.found))
      intro x hx
      have hpar := (hlink x).mp (by simpa using (hN x hx).1)
      exact mem_inPoolAncestors_of_parent hA hpar
    · have hinter : ((st.parentHashes ∪ N) ∩ insert (st.parentHashes.min' hne) st.setAncestors).card ≤ 1 := by
        apply Finset.card_le_one.mpr
        intro a ha b hb
        have honly : ∀ z ∈ (st.parentHashes ∪ N) ∩ insert (st.parentHashes.min' hne) st.setAncestors,
            z = st.parentHashes.min' hne := by
          intro z hz
          obtain ⟨hz₁, hz₂⟩ := Finset.mem_inter.mp hz
          rcases Finset.mem_insert.mp hz₂ with rfl | hzS
          · rfl
          · rcases Finset.mem_union.mp hz₁ with hzP | hzN
            · exact absurd hzS (Finset.disjoint_left.mp st.disjoint hzP)
            · exact absurd (Finset.mem_insert_of_mem hzS) (hN z hzN).2
        rw [honly a ha, honly b hb]
      have := Finset.card_union_add_card_inter (st.parentHashes ∪ N)
        (insert (st.parentHashes.min' hne) st.setAncestors)
      omega
  | case4 st hne stageit hblock setAncestors total hsize parentHashes hv ih =>
    intro hinv err h
    rw [calculateAncestorsLoop, dif_pos hne, if_neg hblock, if_neg hsize] at h
    split at h
    · rename_i hv'
      rw [hv] at hv'
      cases hv'
    · rename_i parentHashes' hv'
      rw [hv] at hv'
      cases hv'
      exact ih (hinv.take hlinks (Finset.min'_mem _ hne) (by simpa [hin] using hblock) hsize hv) err h
  | case5 st hne =>
    intro hinv err h
    rw [calculateAncestorsLoop, dif_neg hne] at h
    cases h

end Search

/-! ## Admission and the miner -/

section Calls

variable {E : Type} [LinearOrder E] {m : CTxMemPool E}

/-- The state the rounds start from, with the parents found by the first
phase. -/
theorem searchInv_start {e : E} {K : Finset E} {limitAncestorCount limitAncestorSize : Nat}
    {parentHashes : Finset E} (hsub : parentHashes ⊆ m.mapTx)
    (hparents : ∀ y, y ∈ parentHashes ↔ ParentOf m e y) (hcount : parentHashes.card + 1 ≤ limitAncestorCount) :
    SearchInv e K limitAncestorCount limitAncestorSize ⟨parentHashes, ∅, m.txSize e, hsub, Finset.disjoint_empty_right _⟩ where
  found := by
    intro y hy
    rw [Finset.union_empty] at hy
    exact mem_inPoolAncestors_of_parentOf ((hparents y).mp hy)
  outside := Finset.disjoint_empty_left _
  start_closed y hy := .inl ((hparents y).mpr hy)
  step_closed x hx := absurd hx (Finset.notMem_empty x)
  total := by simp
  count := by simpa using hcount
  size := .inl rfl

variable {e : E} {K : Finset E} {limitAncestorCount limitAncestorSize : Nat}
  {inBlock : Option (Finset E)} {fSearchForParents : Bool}

/-- An accepted call returns the ancestors outside the block, within both
limits, when the first phase finds exactly the parents of the entry within
the count. -/
theorem calculateMemPoolAncestors_of_ok (hlinks : LinksAgree m)
    (hclosed : ∀ x ∈ K, ∀ y, ParentOf m x y → y ∈ K) (hin : ∀ x, inBlockHas inBlock x = decide (x ∈ K))
    (hfirst : ∀ parentHashes, (if fSearchForParents then searchForParents m limitAncestorCount (m.prevouts e) ∅
        else .ok (m.parents e)) = .ok parentHashes →
      (∀ y, y ∈ parentHashes ↔ ParentOf m e y) ∧ parentHashes.card + 1 ≤ limitAncestorCount)
    {S : Finset E} (h : calculateMemPoolAncestors m e limitAncestorCount limitAncestorSize inBlock fSearchForParents = .ok S) :
    S = inPoolAncestors m e \ K ∧ S.card + 1 ≤ limitAncestorCount ∧
      (S = ∅ ∨ m.txSize e + ∑ x ∈ S, m.txSize x ≤ limitAncestorSize) := by
  unfold calculateMemPoolAncestors at h
  split at h
  · cases h
  · rename_i parentHashes hp
    obtain ⟨hparents, hcount⟩ := hfirst parentHashes hp
    exact calculateAncestorsLoop_ok hlinks hclosed hin _ (searchInv_start _ hparents hcount) S h

/-- A refused call has met ancestors beyond the count, or ancestors whose
sizes with that of the entry pass the size limit. -/
theorem calculateMemPoolAncestors_of_error (hlinks : LinksAgree m) (hin : ∀ x, inBlockHas inBlock x = decide (x ∈ K))
    (hfirst : ∀ parentHashes, (if fSearchForParents then searchForParents m limitAncestorCount (m.prevouts e) ∅
        else .ok (m.parents e)) = .ok parentHashes →
      (∀ y, y ∈ parentHashes ↔ ParentOf m e y) ∧ parentHashes.card + 1 ≤ limitAncestorCount)
    (hfirst_error : ∀ err, (if fSearchForParents then searchForParents m limitAncestorCount (m.prevouts e) ∅
        else .ok (m.parents e)) = .error err →
      ∃ D ⊆ inPoolAncestors m e, limitAncestorCount < D.card + 1)
    {err : AncestorError × Finset E}
    (h : calculateMemPoolAncestors m e limitAncestorCount limitAncestorSize inBlock fSearchForParents = .error err) :
    (∃ D ⊆ inPoolAncestors m e, limitAncestorCount < D.card + 1) ∨
      (∃ T ⊆ inPoolAncestors m e, T.Nonempty ∧ limitAncestorSize < m.txSize e + ∑ x ∈ T, m.txSize x) := by
  unfold calculateMemPoolAncestors at h
  split at h
  · rename_i err' hp
    exact .inl (hfirst_error err' hp)
  · rename_i parentHashes hp
    obtain ⟨hparents, hcount⟩ := hfirst parentHashes hp
    exact calculateAncestorsLoop_error hlinks hin _ (searchInv_start _ hparents hcount) err h

/-- The search among the inputs finds the parents of the entry. -/
theorem searchForParents_parents {parentHashes : Finset E} (hcount : 1 ≤ limitAncestorCount)
    (h : searchForParents m limitAncestorCount (m.prevouts e) ∅ = .ok parentHashes) :
    (∀ y, y ∈ parentHashes ↔ ParentOf m e y) ∧ parentHashes.card + 1 ≤ limitAncestorCount := by
  refine ⟨fun y => ?_, searchForParents_card (by simpa using hcount) h⟩
  rw [searchForParents_ok_eq h]
  simp [ParentOf, and_comm]

/-- A refused search among the inputs met more parents than the count allows. -/
theorem searchForParents_error_ancestors {err : AncestorError × Finset E}
    (h : searchForParents m limitAncestorCount (m.prevouts e) ∅ = .error err) :
    ∃ D ⊆ inPoolAncestors m e, limitAncestorCount < D.card + 1 := by
  obtain ⟨N, hN, hlt⟩ := searchForParents_error h
  refine ⟨N, fun x hx => mem_inPoolAncestors_of_parentOf ⟨(hN x hx).2, (hN x hx).1⟩, ?_⟩
  simpa using hlt

/-- Admission: with the parents searched among the inputs and no block, the
search is accepted exactly when the ancestors and the entry fit the count
and, if there are ancestors, their sizes with the entry's fit the size
limit; it then returns the ancestors. -/
theorem calculateMemPoolAncestors_admission (hlinks : LinksAgree m) (hcount : 1 ≤ limitAncestorCount) :
    ((∃ S, calculateMemPoolAncestors m e limitAncestorCount limitAncestorSize none true = .ok S) ↔
        (inPoolAncestors m e).card + 1 ≤ limitAncestorCount ∧
          (inPoolAncestors m e = ∅ ∨ m.txSize e + ∑ x ∈ inPoolAncestors m e, m.txSize x ≤ limitAncestorSize)) ∧
      ∀ S, calculateMemPoolAncestors m e limitAncestorCount limitAncestorSize none true = .ok S →
        S = inPoolAncestors m e := by
  have hin : ∀ x, inBlockHas none x = decide (x ∈ (∅ : Finset E)) := fun x => by simp [inBlockHas]
  have hclosed : ∀ x ∈ (∅ : Finset E), ∀ y, ParentOf m x y → y ∈ (∅ : Finset E) :=
    fun x hx => absurd hx (Finset.notMem_empty x)
  have hfirst : ∀ parentHashes, (if true then searchForParents m limitAncestorCount (m.prevouts e) ∅
      else .ok (m.parents e)) = .ok parentHashes →
      (∀ y, y ∈ parentHashes ↔ ParentOf m e y) ∧ parentHashes.card + 1 ≤ limitAncestorCount :=
    fun _ hp => searchForParents_parents hcount (by simpa using hp)
  have hfirst_error : ∀ err, (if true then searchForParents m limitAncestorCount (m.prevouts e) ∅
      else .ok (m.parents e)) = .error err → ∃ D ⊆ inPoolAncestors m e, limitAncestorCount < D.card + 1 :=
    fun _ hp => searchForParents_error_ancestors (by simpa using hp)
  have hok : ∀ S, calculateMemPoolAncestors m e limitAncestorCount limitAncestorSize none true = .ok S →
      S = inPoolAncestors m e := fun S h => by
    simpa using (calculateMemPoolAncestors_of_ok hlinks hclosed hin hfirst h).1
  refine ⟨⟨fun ⟨S, h⟩ => ?_, fun ⟨hc, hs⟩ => ?_⟩, hok⟩
  · obtain ⟨-, hc, hs⟩ := calculateMemPoolAncestors_of_ok hlinks hclosed hin hfirst h
    rw [hok S h] at hc hs
    exact ⟨hc, hs⟩
  · cases hres : calculateMemPoolAncestors m e limitAncestorCount limitAncestorSize none true with
    | ok S => exact ⟨S, rfl⟩
    | error err =>
      rcases calculateMemPoolAncestors_of_error hlinks hin hfirst hfirst_error hres with
        ⟨D, hD, hlt⟩ | ⟨T, hT, hne, hlt⟩
      · have := Finset.card_le_card hD
        omega
      · have hA : inPoolAncestors m e ≠ ∅ := (hne.mono hT).ne_empty
        have hsum : ∑ x ∈ T, m.txSize x ≤ ∑ x ∈ inPoolAncestors m e, m.txSize x :=
          Finset.sum_le_sum_of_subset hT
        have := hs.resolve_left hA
        omega

/-- The miner's call: with the parents taken from the links and limits that
the whole pool fits, the call returns the ancestors outside the block. -/
theorem calculateMemPoolAncestors_miner (hlinks : LinksAgree m) (he : e ∈ m.mapTx)
    (hclosed : ∀ x ∈ K, ∀ y, ParentOf m x y → y ∈ K) (hcount : m.mapTx.card + 1 ≤ limitAncestorCount)
    (hsize : m.txSize e + ∑ x ∈ m.mapTx, m.txSize x ≤ limitAncestorSize) :
    calculateMemPoolAncestors m e limitAncestorCount limitAncestorSize (some K) false = .ok (inPoolAncestors m e \ K) := by
  have hin : ∀ x, inBlockHas (some K) x = decide (x ∈ K) := fun _ => rfl
  have hfirst : ∀ parentHashes, (if false then searchForParents m limitAncestorCount (m.prevouts e) ∅
      else .ok (m.parents e)) = .ok parentHashes →
      (∀ y, y ∈ parentHashes ↔ ParentOf m e y) ∧ parentHashes.card + 1 ≤ limitAncestorCount := by
    intro parentHashes hp
    cases hp
    have := Finset.card_le_card (m.parents_subset e)
    exact ⟨hlinks e he, by omega⟩
  have hfirst_error : ∀ err, (if false then searchForParents m limitAncestorCount (m.prevouts e) ∅
      else .ok (m.parents e)) = .error err → ∃ D ⊆ inPoolAncestors m e, limitAncestorCount < D.card + 1 :=
    fun _ hp => by cases hp
  cases hres : calculateMemPoolAncestors m e limitAncestorCount limitAncestorSize (some K) false with
  | ok S => rw [(calculateMemPoolAncestors_of_ok hlinks hclosed hin hfirst hres).1]
  | error err =>
    exfalso
    rcases calculateMemPoolAncestors_of_error hlinks hin hfirst hfirst_error hres with
      ⟨D, hD, hlt⟩ | ⟨T, hT, -, hlt⟩
    · have := Finset.card_le_card (hD.trans (inPoolAncestors_subset e))
      omega
    · have hsum : ∑ x ∈ T, m.txSize x ≤ ∑ x ∈ m.mapTx, m.txSize x :=
        Finset.sum_le_sum_of_subset (hT.trans (inPoolAncestors_subset e))
      omega

/-- With the links agreeing with the inputs: at admission the call is accepted
exactly when the ancestors and the entry fit the count and, if there are
ancestors, their sizes with the entry's fit the size limit, and it then
returns the ancestors; the miner's call, with a block closed under ancestry
and limits that the whole pool fits, returns the ancestors outside the
block. -/
theorem calculateMemPoolAncestors_closure (hlinks : LinksAgree m) :
    (∀ (e : E) (limitAncestorCount limitAncestorSize : Nat), 1 ≤ limitAncestorCount →
      ((∃ S, calculateMemPoolAncestors m e limitAncestorCount limitAncestorSize none true = .ok S) ↔
          (inPoolAncestors m e).card + 1 ≤ limitAncestorCount ∧
            (inPoolAncestors m e = ∅ ∨ m.txSize e + ∑ x ∈ inPoolAncestors m e, m.txSize x ≤ limitAncestorSize)) ∧
        ∀ S, calculateMemPoolAncestors m e limitAncestorCount limitAncestorSize none true = .ok S →
          S = inPoolAncestors m e) ∧
    ∀ (e : E) (inBlock : Finset E) (limitAncestorCount limitAncestorSize : Nat), e ∈ m.mapTx →
      (∀ x ∈ inBlock, ∀ y, ParentOf m x y → y ∈ inBlock) → m.mapTx.card + 1 ≤ limitAncestorCount →
      m.txSize e + ∑ x ∈ m.mapTx, m.txSize x ≤ limitAncestorSize →
        calculateMemPoolAncestors m e limitAncestorCount limitAncestorSize (some inBlock) false =
          .ok (inPoolAncestors m e \ inBlock) :=
  ⟨fun _ _ _ hcount => calculateMemPoolAncestors_admission hlinks hcount,
    fun _ _ _ _ he hclosed hcount hsize => calculateMemPoolAncestors_miner hlinks he hclosed hcount hsize⟩

end Calls

/-- A pool of two entries, `1` spending `0`, each of size 100. -/
def spendChain : CTxMemPool Nat where
  mapTx := {0, 1}
  parents x := if x = 1 then {0} else ∅
  prevouts x := if x = 0 then [] else [x - 1]
  txSize _ := 100
  parents_subset x := by split <;> simp

theorem spendChain_linksAgree : LinksAgree spendChain := by
  intro x hx y
  simp only [spendChain, Finset.mem_insert, Finset.mem_singleton] at hx
  rcases hx with rfl | rfl
  · simp [ParentOf, spendChain]
  · simp only [ParentOf, spendChain]
    simp
    omega

/-- A transaction `2` spending `1` is admitted with a count limit of 3 and a
size limit of 300 (itself and its two ancestors). -/
theorem calculateMemPoolAncestors_closure_spendChain :
    LinksAgree spendChain ∧ ∃ S, calculateMemPoolAncestors spendChain 2 3 300 none true = .ok S := by
  have hsub : inPoolAncestors spendChain 2 ⊆ spendChain.mapTx := inPoolAncestors_subset 2
  have hcard : (inPoolAncestors spendChain 2).card ≤ 2 := Finset.card_le_card hsub
  have hsum : ∑ x ∈ inPoolAncestors spendChain 2, spendChain.txSize x ≤ 200 :=
    Finset.sum_le_sum_of_subset hsub
  refine ⟨spendChain_linksAgree, ((calculateMemPoolAncestors_closure spendChain_linksAgree).1 2 3 300
    (by decide)).1.mpr ⟨by omega, .inr ?_⟩⟩
  simp only [spendChain] at hsum ⊢
  omega

/-- The empty pool, where every transaction has size 100. -/
def emptyPool : CTxMemPool Nat := ⟨∅, fun _ => ∅, fun _ => [], fun _ => 100, fun _ => subset_refl _⟩

/-- An entry with no ancestors is admitted whatever its size: the empty pool
accepts an entry of size 100 under a size limit of 5. -/
theorem calculateMemPoolAncestors_unchecked_entry_size :
    calculateMemPoolAncestors emptyPool 0 1 5 none true = .ok ∅ ∧
      5 < emptyPool.txSize 0 + ∑ x ∈ inPoolAncestors emptyPool 0, emptyPool.txSize x := by
  have hA : inPoolAncestors emptyPool 0 = ∅ := Finset.subset_empty.mp (inPoolAncestors_subset 0)
  have hlinks : LinksAgree emptyPool := fun x hx => absurd hx (Finset.notMem_empty x)
  have hadm := @calculateMemPoolAncestors_admission _ _ emptyPool 0 1 5 hlinks (le_refl 1)
  obtain ⟨S, hS⟩ : ∃ S, calculateMemPoolAncestors emptyPool 0 1 5 none true = .ok S :=
    hadm.1.mpr ⟨by simp [hA], .inl hA⟩
  refine ⟨?_, ?_⟩
  · rw [hS, hadm.2 S hS, hA]
  · rw [hA, Finset.sum_empty]
    decide

end Membercoin
