import Membercoin.MerkleBlock.PartialMerkleSerialize

/-!
# `ExtractMatches` on untrusted trees

A `CPartialMerkleTree` read from a peer has any `nTransactions` below `2 ^ 32`
and any bits and hashes. `ExtractMatches` walks it all the same: the height
loop stops by 31 (`treeHeight_le`), so every shift is in range; every read of
`vBits` and `vHash` is behind its bounds check (`traverseAndExtractChecked_eq`);
and a node is visited only when its first leaf is below `nTransactions`, so the
reported positions are increasing and in range (`traverseAndExtract_vnIndex`).
What does not hold for every count is the absence of wrapping: from
`2 ^ 31 + 1` transactions on, the last width the height loop computes has a
wrapped sum (`treeHeight_wraps`).
-/

namespace Membercoin
/-! ## The height loop -/

/-- A width never exceeds the unwrapped block count: wrapping only makes the
sum smaller. -/
theorem calcTreeWidth_le (n h : Nat) : calcTreeWidth n h ≤ (n + 2 ^ h - 1) / 2 ^ h := by
  rw [calcTreeWidth, Nat.shiftRight_eq_div_pow]
  exact Nat.div_le_div_right (Nat.mod_le _ _)

/-- The height loop run from a height at most 31 stops by 31, at a height of
width at most one. -/
theorem treeHeightFrom_spec (n : Nat) :
    ∀ fuel h, h ≤ 31 → 31 ≤ h + fuel →
      treeHeightFrom n fuel h ≤ 31 ∧ calcTreeWidth n (treeHeightFrom n fuel h) ≤ 1 := by
  intro fuel
  induction fuel with
  | zero =>
    intro h hh hfuel
    obtain rfl : h = 31 := by omega
    exact ⟨le_refl _, calcTreeWidth_thirtyOne_le_one n⟩
  | succ fuel ih =>
    intro h hh hfuel
    rw [treeHeightFrom]
    split_ifs with hwide
    · have hlt : h ≠ 31 := by
        rintro rfl
        exact absurd (calcTreeWidth_thirtyOne_le_one n) (by omega)
      exact ih (h + 1) (by omega) (by omega)
    · exact ⟨hh, by omega⟩

theorem treeHeight_le (n : Nat) : treeHeight n ≤ 31 :=
  (treeHeightFrom_spec n 32 0 (by decide) (by decide)).1

theorem calcTreeWidth_treeHeight_le (n : Nat) : calcTreeWidth n (treeHeight n) ≤ 1 :=
  (treeHeightFrom_spec n 32 0 (by decide) (by decide)).2

/-- Above `2 ^ 31` transactions the height loop ends on a wrapped sum: an
unwrapped width at most one would fit all of them below height 31. -/
theorem treeHeight_wraps {n : Nat} (hn : 2 ^ 31 < n) (hn32 : n < 2 ^ 32) :
    2 ^ 32 ≤ n + 2 ^ treeHeight n - 1 := by
  have hle := treeHeight_le n
  have hpow : 2 ^ treeHeight n ≤ 2 ^ 31 := Nat.pow_le_pow_right (by decide) hle
  have hwidth := calcTreeWidth_treeHeight_le n
  by_contra hsum
  have hd : 0 < 2 ^ treeHeight n := Nat.two_pow_pos _
  rw [calcTreeWidth, Nat.mod_eq_of_lt (by omega), Nat.shiftRight_eq_div_pow] at hwidth
  have := (Nat.div_lt_iff_lt_mul hd).mp (Nat.lt_succ_of_le hwidth)
  omega


/-! ## Reads in range -/

variable {α : Type} [Inhabited α] (hash : α → α → α)

/-- `extractHash` with its read of `vHash` checked: `none` for a read out of
range. -/
def extractHashChecked (t : CPartialMerkleTree α) (height pos : Nat) (fParentOfMatch : Bool)
    (e : Extraction α) : Option (α × Extraction α) :=
  if t.vHash.length ≤ e.nHashUsed then some (default, { e with fBad := true })
  else do
    let h ← t.vHash[e.nHashUsed]?
    let e := { e with nHashUsed := e.nHashUsed + 1 }
    if height = 0 ∧ fParentOfMatch = true then
      pure (h, { e with vMatch := e.vMatch ++ [h], vnIndex := e.vnIndex ++ [pos] })
    else pure (h, e)

theorem extractHashChecked_eq (t : CPartialMerkleTree α) (height pos : Nat) (b : Bool) (e : Extraction α) :
    extractHashChecked t height pos b e = some (extractHash t height pos b e) := by
  unfold extractHashChecked extractHash
  by_cases hlen : t.vHash.length ≤ e.nHashUsed
  · rw [if_pos hlen, if_pos hlen]
  · rw [if_neg hlen, if_neg hlen, List.getElem?_eq_getElem (by omega), List.getD_eq_getElem _ _ (by omega)]
    split_ifs <;> rfl

section checked

variable [DecidableEq α]

/-- `TraverseAndExtract` with every read of `vBits` and `vHash` checked:
`none` for a read out of range. -/
def traverseAndExtractChecked (t : CPartialMerkleTree α) (height pos : Nat) (e : Extraction α) :
    Option (α × Extraction α) :=
  if t.vBits.length ≤ e.nBitsUsed then some (default, { e with fBad := true })
  else do
    let fParentOfMatch ← t.vBits[e.nBitsUsed]?
    let e := { e with nBitsUsed := e.nBitsUsed + 1 }
    match height with
    | 0 => extractHashChecked t 0 pos fParentOfMatch e
    | height + 1 =>
      if !fParentOfMatch then extractHashChecked t (height + 1) pos fParentOfMatch e
      else do
        let left ← traverseAndExtractChecked t height (pos * 2) e
        if pos * 2 + 1 < calcTreeWidth t.nTransactions height then
          let right ← traverseAndExtractChecked t height (pos * 2 + 1) left.2
          pure (hash left.1 right.1, if right.1 = left.1 then { right.2 with fBad := true } else right.2)
        else pure (hash left.1 left.1, left.2)

/-- No read of the traversal leaves `vBits` or `vHash`: the checked walk
never fails, and it is the walk of the model. -/
theorem traverseAndExtractChecked_eq (t : CPartialMerkleTree α) (height : Nat) :
    ∀ pos e, traverseAndExtractChecked hash t height pos e = some (traverseAndExtract hash t height pos e) := by
  induction height with
  | zero =>
    intro pos e
    unfold traverseAndExtractChecked traverseAndExtract
    by_cases hlen : t.vBits.length ≤ e.nBitsUsed
    · rw [if_pos hlen, if_pos hlen]
    · rw [if_neg hlen, if_neg hlen, List.getElem?_eq_getElem (by omega), List.getD_eq_getElem _ _ (by omega)]
      exact extractHashChecked_eq t 0 pos _ _
  | succ height ih =>
    intro pos e
    unfold traverseAndExtractChecked traverseAndExtract
    by_cases hlen : t.vBits.length ≤ e.nBitsUsed
    · rw [if_pos hlen, if_pos hlen]
    · rw [if_neg hlen, if_neg hlen, List.getElem?_eq_getElem (by omega), List.getD_eq_getElem _ _ (by omega)]
      generalize t.vBits[e.nBitsUsed] = b
      cases b with
      | false => simp [extractHashChecked_eq]
      | true =>
        simp only [ih, Bool.not_true, Bool.false_eq_true, if_false, Option.bind_eq_bind, Option.bind_some]
        split_ifs <;> rfl
end checked

/-! ## Matched positions -/

/-- Positions that a walk of the node at `height` and `pos` may report:
increasing, below the node, and below `n`. -/
def LeafIndices (n height pos : Nat) (I : List Nat) : Prop :=
  I.Pairwise (· < ·) ∧ ∀ i ∈ I, pos * 2 ^ height ≤ i ∧ i < (pos + 1) * 2 ^ height ∧ i < n

theorem LeafIndices.nil (n height pos : Nat) : LeafIndices n height pos [] := by
  simp [LeafIndices]

theorem LeafIndices.single {n pos : Nat} (hpos : pos < n) : LeafIndices n 0 pos [pos] := by
  simp [LeafIndices, hpos]

/-- The positions of the left subtree, then those of the right one, are
positions of the parent. -/
theorem LeafIndices.append {n h pos : Nat} {L R : List Nat} (hL : LeafIndices n h (pos * 2) L)
    (hR : LeafIndices n h (pos * 2 + 1) R) : LeafIndices n (h + 1) pos (L ++ R) := by
  have hpow : pos * 2 ^ (h + 1) = pos * 2 * 2 ^ h := by ring
  have hpow' : (pos + 1) * 2 ^ (h + 1) = (pos * 2 + 1 + 1) * 2 ^ h := by ring
  refine ⟨List.pairwise_append.mpr ⟨hL.1, hR.1, fun a ha b hb => ?_⟩, fun i hi => ?_⟩
  · have := (hL.2 a ha).2.1
    have := (hR.2 b hb).1
    omega
  · rw [hpow, hpow']
    rcases List.mem_append.mp hi with hi | hi
    · obtain ⟨h1, h2, h3⟩ := hL.2 i hi
      refine ⟨h1, ?_, h3⟩
      have : (pos * 2 + 1) * 2 ^ h ≤ (pos * 2 + 1 + 1) * 2 ^ h := Nat.mul_le_mul_right _ (by omega)
      omega
    · obtain ⟨h1, h2, h3⟩ := hR.2 i hi
      refine ⟨?_, h2, h3⟩
      have : pos * 2 * 2 ^ h ≤ (pos * 2 + 1) * 2 ^ h := Nat.mul_le_mul_right _ (by omega)
      omega

/-- A right child that the walk visits has its first leaf below `n`. -/
theorem lt_of_lt_calcTreeWidth {n h pos : Nat} (hc : pos < calcTreeWidth n h) : pos * 2 ^ h < n := by
  have hd : 0 < 2 ^ h := Nat.two_pow_pos h
  have hle := lt_of_lt_of_le hc (calcTreeWidth_le n h)
  rw [← Nat.add_one_le_iff, Nat.le_div_iff_mul_le hd, Nat.add_mul, one_mul] at hle
  omega

theorem extractHash_vnIndex (t : CPartialMerkleTree α) (height pos : Nat) (b : Bool) (e : Extraction α) :
    (extractHash t height pos b e).2.vnIndex = e.vnIndex ∨
      height = 0 ∧ (extractHash t height pos b e).2.vnIndex = e.vnIndex ++ [pos] := by
  unfold extractHash
  split_ifs with hlen hmatch
  · exact Or.inl rfl
  · exact Or.inr ⟨hmatch.1, rfl⟩
  · exact Or.inl rfl

section indices

variable [DecidableEq α]

/-- The walk of a node whose first leaf is below `n` appends positions of
that node. The induction is on the height: a stop adds at most its own
position at height 0, and a descent adds the left subtree's positions, then
the right one's when that child exists. -/
theorem traverseAndExtract_vnIndex (t : CPartialMerkleTree α) (height : Nat) :
    ∀ pos e, pos * 2 ^ height < t.nTransactions →
      ∃ I, (traverseAndExtract hash t height pos e).2.vnIndex = e.vnIndex ++ I ∧
        LeafIndices t.nTransactions height pos I := by
  induction height with
  | zero =>
    intro pos e hpos
    unfold traverseAndExtract
    split_ifs with hlen
    · exact ⟨[], by simp, LeafIndices.nil _ _ _⟩
    rcases extractHash_vnIndex t 0 pos (t.vBits.getD e.nBitsUsed false)
      { e with nBitsUsed := e.nBitsUsed + 1 } with heq | ⟨-, heq⟩
    · exact ⟨[], by simpa using heq, LeafIndices.nil _ _ _⟩
    · exact ⟨[pos], heq, LeafIndices.single (by simpa using hpos)⟩
  | succ height ih =>
    intro pos e hpos
    have hleft : pos * 2 * 2 ^ height < t.nTransactions := leftChild_lt hpos
    unfold traverseAndExtract
    split_ifs with hlen
    · exact ⟨[], by simp, LeafIndices.nil _ _ _⟩
    dsimp only
    set e₁ : Extraction α := { e with nBitsUsed := e.nBitsUsed + 1 }
    by_cases hstop : (!t.vBits.getD e.nBitsUsed false) = true
    · rw [if_pos hstop]
      rcases extractHash_vnIndex t (height + 1) pos (t.vBits.getD e.nBitsUsed false) e₁ with heq | ⟨habs, -⟩
      · exact ⟨[], by simpa [e₁] using heq, LeafIndices.nil _ _ _⟩
      · omega
    rw [if_neg hstop]
    obtain ⟨L, hL, hLI⟩ := ih (pos * 2) e₁ hleft
    by_cases hc : pos * 2 + 1 < calcTreeWidth t.nTransactions height
    · obtain ⟨R, hR, hRI⟩ := ih (pos * 2 + 1) (traverseAndExtract hash t height (pos * 2) e₁).2
        (lt_of_lt_calcTreeWidth hc)
      refine ⟨L ++ R, ?_, LeafIndices.append hLI hRI⟩
      rw [if_pos hc]
      split_ifs <;> simp [hR, hL, e₁]
    · rw [if_neg hc]
      refine ⟨L, hL, ?_⟩
      simpa using LeafIndices.append hLI (LeafIndices.nil _ _ _)


/-- `ExtractMatches` appends increasing positions below `nTransactions` to
the `vnIndex` it was given, whatever the tree. -/
theorem extractMatches_vnIndex (t : CPartialMerkleTree α) (vnIndex : List Nat) :
    ∃ I, (extractMatches hash t vnIndex).2.vnIndex = vnIndex ++ I ∧ I.Pairwise (· < ·) ∧
      ∀ i ∈ I, i < t.nTransactions := by
  have hnone : ∃ I, vnIndex = vnIndex ++ I ∧ I.Pairwise (· < ·) ∧ ∀ i ∈ I, i < t.nTransactions :=
    ⟨[], by simp, List.Pairwise.nil, by simp⟩
  unfold extractMatches
  dsimp only
  by_cases h0 : t.nTransactions = 0
  · rwa [if_pos h0]
  by_cases hHash : t.vHash.length > t.nTransactions
  · rwa [if_neg h0, if_pos hHash]
  by_cases hBits : t.vBits.length < t.vHash.length
  · rwa [if_neg h0, if_neg hHash, if_pos hBits]
  rw [if_neg h0, if_neg hHash, if_neg hBits]
  obtain ⟨I, hI, hpair, hbound⟩ := traverseAndExtract_vnIndex hash t (treeHeight t.nTransactions) 0
    ⟨0, 0, [], vnIndex, t.fBad⟩ (by simp; omega)
  refine ⟨I, ?_, hpair, fun i hi => (hbound i hi).2.2⟩
  split_ifs <;> exact hI

/-- `ExtractMatches` on any tree: the height loop stops by 31, so every shift
is in range; below `2 ^ 31 + 1` transactions no width wraps, while from
there to `2 ^ 32` the loop ends on a wrapped width; every read of `vBits` and
`vHash` is in range; and the positions appended to `vnIndex` are increasing
and below `nTransactions`. -/
theorem extractMatches_safe (t : CPartialMerkleTree α) (vnIndex : List Nat) :
    treeHeight t.nTransactions ≤ 31 ∧
      (t.nTransactions ≤ 2 ^ 31 →
        ∀ h ≤ treeHeight t.nTransactions, t.nTransactions + 2 ^ h - 1 < 2 ^ 32) ∧
      (2 ^ 31 < t.nTransactions → t.nTransactions < 2 ^ 32 →
        2 ^ 32 ≤ t.nTransactions + 2 ^ treeHeight t.nTransactions - 1) ∧
      (∀ height pos e, traverseAndExtractChecked hash t height pos e =
        some (traverseAndExtract hash t height pos e)) ∧
      ∃ I, (extractMatches hash t vnIndex).2.vnIndex = vnIndex ++ I ∧ I.Pairwise (· < ·) ∧
        ∀ i ∈ I, i < t.nTransactions := by
  refine ⟨treeHeight_le _, fun hn h hh => ?_, treeHeight_wraps, fun height => traverseAndExtractChecked_eq hash t height,
    extractMatches_vnIndex hash t vnIndex⟩
  have hpow : 2 ^ h ≤ 2 ^ 31 := Nat.pow_le_pow_right (by decide) (le_trans hh (treeHeight_le _))
  omega

end indices

/-- A tree read from the wire with `2 ^ 31 + 1` transactions and no bits or
hashes passes the early checks of `ExtractMatches`, whose height loop then
stops at height 31 on a wrapped sum: `CalcTreeWidth(31)` is 0 where the
tree has two nodes at that height. -/
theorem extractMatches_wrapped_width :
    CPartialMerkleTree.unserialize (⟨2 ^ 31 + 1, [], [], false⟩ : CPartialMerkleTree Uint256).serialize =
        some (⟨2 ^ 31 + 1, [], [], false⟩, []) ∧
      treeHeight (2 ^ 31 + 1) = 31 ∧ 2 ^ 32 ≤ 2 ^ 31 + 1 + 2 ^ 31 - 1 ∧
      calcTreeWidth (2 ^ 31 + 1) 31 = 0 ∧ (2 ^ 31 + 1 + 2 ^ 31 - 1) / 2 ^ 31 = 2 := by
  have hread : CPartialMerkleTree.unserialize
      ((⟨2 ^ 31 + 1, [], [], false⟩ : CPartialMerkleTree Uint256).serialize ++ []) =
        some ({ (⟨2 ^ 31 + 1, [], [], false⟩ : CPartialMerkleTree Uint256) with
          vBits := unpackBits (packBits []), fBad := false }, []) :=
    unserialize_serialize (by norm_num) (by simp) (by simp [maxSize]) []
  have hwrap : 2 ^ 32 ≤ 2 ^ 31 + 1 + 2 ^ treeHeight (2 ^ 31 + 1) - 1 := treeHeight_wraps (by norm_num) (by norm_num)
  have hheight : treeHeight (2 ^ 31 + 1) = 31 := by
    have hle := treeHeight_le (2 ^ 31 + 1)
    by_contra hne
    have hpow : 2 ^ treeHeight (2 ^ 31 + 1) ≤ 2 ^ 30 := Nat.pow_le_pow_right (by decide) (by omega)
    omega
  refine ⟨by simpa [unpackBits_packBits] using hread, hheight, by norm_num, by decide, by norm_num⟩

end Membercoin
