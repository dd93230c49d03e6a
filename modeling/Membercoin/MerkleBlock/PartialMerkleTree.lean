import Membercoin.Consensus.MerkleLevels

/-!
# Partial merkle trees (merkleblock.cpp)

A `CPartialMerkleTree` proves that some transactions are in a block. Over
the padded hash tree of the block's txids it keeps one flag bit for each node
that a depth-first walk visits, `true` when a matched txid lies below. It
keeps a hash for each node where the walk stops: a leaf, or a node with no
match below. `TraverseAndBuild` makes the walk when the tree is built;
`TraverseAndExtract` repeats it from the bits and hashes alone and recomputes
the root, collecting the matched txids on the way.

The model keeps the C++ word sizes where they can wrap: `CalcTreeWidth` in
`unsigned int` arithmetic, and the shifted bounds of the match loop of
`TraverseAndBuild`. The hash of two `uint256`s is a parameter `hash`. A
read of `vTxid` or `vMatch` past its end is undefined, and the constructor's
functions return `none` there. With a match vector at least as long as the
txids no read is out of range (`create_eq_some`), and the constructor builds
what the same walk with reads by `getD` builds (`traverseAndBuildD`), which
the proofs are about.

The central fact is that the two walks agree (`traverseAndExtract_build`):
extraction from the bits and hashes that building wrote, for a tree of at
most `2 ^ 31` txids whose sibling nodes never hash alike, reads them all back,
returns the node of the padded tree (`MerkleTree.node`) and lists the matched
leaves in order. So `ExtractMatches` of a built tree returns the root that
`ComputeMerkleRoot` computes (`extractMatches_create`).
-/

namespace Membercoin

open MerkleTree

/-- The fields of a `CPartialMerkleTree`. -/
structure CPartialMerkleTree (α : Type) where
  nTransactions : Nat
  vBits : List Bool
  vHash : List α
  fBad : Bool

/-- `CalcTreeWidth`: `(nTransactions + (1 << height) - 1) >> height` in
`unsigned int` arithmetic. The loops below never reach a height above 31. -/
def calcTreeWidth (nTransactions height : Nat) : Nat :=
  ((nTransactions + 2 ^ height - 1) % 2 ^ 32) >>> height

/-- The loop `while (CalcTreeWidth(nHeight) > 1) nHeight++` of the constructor
and of `ExtractMatches`, with a bound on its rounds. -/
def treeHeightFrom (nTransactions : Nat) : Nat → Nat → Nat
  | 0, nHeight => nHeight
  | fuel + 1, nHeight =>
    if calcTreeWidth nTransactions nHeight > 1 then treeHeightFrom nTransactions fuel (nHeight + 1)
    else nHeight

/-- The height of the tree. Every width is at most one from height 31 on
(`calcTreeWidth_thirtyOne_le_one`), so 32 rounds are enough. -/
def treeHeight (nTransactions : Nat) : Nat := treeHeightFrom nTransactions 32 0

section width

variable {n h : Nat}

/-- Below `2 ^ 31` transactions the width does not wrap: it is the number of
blocks of `2 ^ height` leaves. -/
theorem calcTreeWidth_eq (hn : n ≤ 2 ^ 31) (hh : h ≤ 31) :
    calcTreeWidth n h = (n + 2 ^ h - 1) / 2 ^ h := by
  have hpow : 2 ^ h ≤ 2 ^ 31 := Nat.pow_le_pow_right (by decide) hh
  rw [calcTreeWidth, Nat.mod_eq_of_lt (by omega), Nat.shiftRight_eq_div_pow]

/-- A node exists at `pos` when its first leaf does. -/
theorem lt_calcTreeWidth_iff (hn : n ≤ 2 ^ 31) (hh : h ≤ 31) {pos : Nat} :
    pos < calcTreeWidth n h ↔ pos * 2 ^ h < n := by
  have hd : 0 < 2 ^ h := Nat.two_pow_pos h
  rw [calcTreeWidth_eq hn hh, ← Nat.add_one_le_iff, Nat.le_div_iff_mul_le hd, Nat.add_mul, one_mul]
  omega

/-- The left child of a node of the tree is a node of the tree. -/
theorem leftChild_lt {pos : Nat} (hpos : pos * 2 ^ (h + 1) < n) : pos * 2 * 2 ^ h < n := by
  have hpow : pos * 2 ^ (h + 1) = pos * 2 * 2 ^ h := by ring
  rwa [← hpow]

/-- At height 31 every `unsigned int` count has width at most one, so the
height loop stops there. -/
theorem calcTreeWidth_thirtyOne_le_one (n : Nat) : calcTreeWidth n 31 ≤ 1 := by
  have hlt : (n + 2 ^ 31 - 1) % 2 ^ 32 < 2 ^ 32 := Nat.mod_lt _ (by decide)
  rw [calcTreeWidth, Nat.shiftRight_eq_div_pow]
  omega

/-- The height loop stops at the least height whose single block holds all
leaves. -/
theorem treeHeightFrom_eq_clog (hn : n ≤ 2 ^ 31) (fuel : Nat) :
    ∀ h, h ≤ Nat.clog 2 n → Nat.clog 2 n ≤ h + fuel → treeHeightFrom n fuel h = Nat.clog 2 n := by
  have hclog : Nat.clog 2 n ≤ 31 := Nat.clog_le_of_le_pow hn
  induction fuel with
  | zero =>
    intro h hle hge
    rw [treeHeightFrom]
    omega
  | succ fuel ih =>
    intro h hle hge
    have hwide : calcTreeWidth n h > 1 ↔ h < Nat.clog 2 n := by
      rw [gt_iff_lt, lt_calcTreeWidth_iff hn (by omega), one_mul, Nat.lt_clog_iff_pow_lt (by decide)]
    rw [treeHeightFrom]
    by_cases hlt : h < Nat.clog 2 n
    · rw [if_pos (hwide.mpr hlt)]
      exact ih (h + 1) (by omega) (by omega)
    · rw [if_neg (fun hw => hlt (hwide.mp hw))]
      omega

theorem treeHeight_eq_clog (hn : n ≤ 2 ^ 31) : treeHeight n = Nat.clog 2 n := by
  have hclog : Nat.clog 2 n ≤ 31 := Nat.clog_le_of_le_pow hn
  exact treeHeightFrom_eq_clog hn 32 0 (Nat.zero_le _) (by omega)

end width

variable {α : Type} [Inhabited α] (hash : α → α → α)

/-- `CalcHash`: the node at `height` and `pos`, a missing right child replaced
by the left one. Reading `vTxid[pos]` past its end is undefined. -/
def calcHash (nTransactions : Nat) (vTxid : List α) : Nat → Nat → Option α
  | 0, pos => vTxid[pos]?
  | height + 1, pos => do
    let left ← calcHash nTransactions vTxid height (pos * 2)
    let right ←
      if pos * 2 + 1 < calcTreeWidth nTransactions height then
        calcHash nTransactions vTxid height (pos * 2 + 1)
      else pure left
    pure (hash left right)

/-- The loop of `TraverseAndBuild` that ORs `vMatch[p]` for
`pos << height ≤ p < (pos + 1) << height` and `p < nTransactions`; the shifts
are of an `unsigned int`, and reading `vMatch[p]` past its end is
undefined. -/
def parentOfMatch (nTransactions : Nat) (vMatch : List Bool) (height pos : Nat) : Option Bool :=
  let first := (pos <<< height) % 2 ^ 32
  let last := min (((pos + 1) <<< height) % 2 ^ 32) nTransactions
  (List.range' first (last - first)).foldlM
    (fun fParentOfMatch p => (fParentOfMatch || ·) <$> vMatch[p]?) false

/-- `TraverseAndBuild`: the flag bits and the hashes it appends to `vBits` and
`vHash`, in order. -/
def traverseAndBuild (nTransactions : Nat) (vTxid : List α) (vMatch : List Bool) :
    Nat → Nat → Option (List Bool × List α)
  | 0, pos => do
    let fParentOfMatch ← parentOfMatch nTransactions vMatch 0 pos
    let h ← calcHash hash nTransactions vTxid 0 pos
    pure ([fParentOfMatch], [h])
  | height + 1, pos => do
    let fParentOfMatch ← parentOfMatch nTransactions vMatch (height + 1) pos
    if !fParentOfMatch then
      let h ← calcHash hash nTransactions vTxid (height + 1) pos
      pure ([fParentOfMatch], [h])
    else
      let left ← traverseAndBuild nTransactions vTxid vMatch height (pos * 2)
      let right ←
        if pos * 2 + 1 < calcTreeWidth nTransactions height then
          traverseAndBuild nTransactions vTxid vMatch height (pos * 2 + 1)
        else pure ([], [])
      pure (fParentOfMatch :: (left.1 ++ right.1), left.2 ++ right.2)

/-- The constructor `CPartialMerkleTree(vTxid, vMatch)`. -/
def CPartialMerkleTree.create (vTxid : List α) (vMatch : List Bool) :
    Option (CPartialMerkleTree α) :=
  let nTransactions := vTxid.length % 2 ^ 32
  (traverseAndBuild hash nTransactions vTxid vMatch (treeHeight nTransactions) 0).map
    fun built => { nTransactions, vBits := built.1, vHash := built.2, fBad := false }

/-! ### The walk with every read in range

The same functions with a read past the end giving a default value. Where
every read is in range, which `traverseAndBuild_eq_some` shows of a match
vector as long as the txids, they compute what the constructor does; the
proofs below are about them. -/

/-- `calcHash` with `vTxid[pos]` read by `getD`. -/
def calcHashD (nTransactions : Nat) (vTxid : List α) : Nat → Nat → α
  | 0, pos => vTxid.getD pos default
  | height + 1, pos =>
    let left := calcHashD nTransactions vTxid height (pos * 2)
    let right :=
      if pos * 2 + 1 < calcTreeWidth nTransactions height then
        calcHashD nTransactions vTxid height (pos * 2 + 1)
      else left
    hash left right

/-- `parentOfMatch` with `vMatch[p]` read by `getD`. -/
def parentOfMatchD (nTransactions : Nat) (vMatch : List Bool) (height pos : Nat) : Bool :=
  let first := (pos <<< height) % 2 ^ 32
  let last := min (((pos + 1) <<< height) % 2 ^ 32) nTransactions
  (List.range' first (last - first)).any (vMatch.getD · false)

/-- `traverseAndBuild` over `parentOfMatchD` and `calcHashD`. -/
def traverseAndBuildD (nTransactions : Nat) (vTxid : List α) (vMatch : List Bool) :
    Nat → Nat → List Bool × List α
  | 0, pos => ([parentOfMatchD nTransactions vMatch 0 pos], [calcHashD hash nTransactions vTxid 0 pos])
  | height + 1, pos =>
    let fParentOfMatch := parentOfMatchD nTransactions vMatch (height + 1) pos
    if !fParentOfMatch then
      ([fParentOfMatch], [calcHashD hash nTransactions vTxid (height + 1) pos])
    else
      let left := traverseAndBuildD nTransactions vTxid vMatch height (pos * 2)
      let right :=
        if pos * 2 + 1 < calcTreeWidth nTransactions height then
          traverseAndBuildD nTransactions vTxid vMatch height (pos * 2 + 1)
        else ([], [])
      (fParentOfMatch :: (left.1 ++ right.1), left.2 ++ right.2)

/-- `CPartialMerkleTree.create` over `traverseAndBuildD`. -/
def CPartialMerkleTree.createD (vTxid : List α) (vMatch : List Bool) : CPartialMerkleTree α :=
  let nTransactions := vTxid.length % 2 ^ 32
  let built := traverseAndBuildD hash nTransactions vTxid vMatch (treeHeight nTransactions) 0
  { nTransactions, vBits := built.1, vHash := built.2, fBad := false }

/-- What `TraverseAndExtract` updates: the counters and output vectors passed
by reference, and the tree's `fBad`. -/
structure Extraction (α : Type) where
  nBitsUsed : Nat
  nHashUsed : Nat
  vMatch : List α
  vnIndex : List Nat
  fBad : Bool

/-- The branch of `TraverseAndExtract` that uses the next stored hash, a
matched txid at height 0. -/
def extractHash (t : CPartialMerkleTree α) (height pos : Nat) (fParentOfMatch : Bool)
    (e : Extraction α) : α × Extraction α :=
  if t.vHash.length ≤ e.nHashUsed then (default, { e with fBad := true })
  else
    let h := t.vHash.getD e.nHashUsed default
    let e := { e with nHashUsed := e.nHashUsed + 1 }
    if height = 0 ∧ fParentOfMatch = true then
      (h, { e with vMatch := e.vMatch ++ [h], vnIndex := e.vnIndex ++ [pos] })
    else (h, e)

section extraction

variable [DecidableEq α]

/-- `TraverseAndExtract`. -/
def traverseAndExtract (t : CPartialMerkleTree α) (height pos : Nat) (e : Extraction α) :
    α × Extraction α :=
  if t.vBits.length ≤ e.nBitsUsed then (default, { e with fBad := true })
  else
    let fParentOfMatch := t.vBits.getD e.nBitsUsed false
    let e := { e with nBitsUsed := e.nBitsUsed + 1 }
    match height with
    | 0 => extractHash t 0 pos fParentOfMatch e
    | height + 1 =>
      if !fParentOfMatch then extractHash t (height + 1) pos fParentOfMatch e
      else
        let left := traverseAndExtract t height (pos * 2) e
        if pos * 2 + 1 < calcTreeWidth t.nTransactions height then
          let right := traverseAndExtract t height (pos * 2 + 1) left.2
          -- the two subtrees cover distinct txids, so equal hashes are rejected
          (hash left.1 right.1, if right.1 = left.1 then { right.2 with fBad := true } else right.2)
        else (hash left.1 left.1, left.2)

/-- `ExtractMatches(vMatch, vnIndex)`: the root, or `uint256()` on failure,
and the final extraction. `vMatch` is cleared first, `vnIndex` is not. -/
def extractMatches (t : CPartialMerkleTree α) (vnIndex : List Nat) : α × Extraction α :=
  let e : Extraction α := ⟨0, 0, [], vnIndex, t.fBad⟩
  if t.nTransactions = 0 then (default, e)
  else if t.vHash.length > t.nTransactions then (default, e)
  else if t.vBits.length < t.vHash.length then (default, e)
  else
    let r := traverseAndExtract hash t (treeHeight t.nTransactions) 0 e
    if r.2.fBad then (default, r.2)
    else if (r.2.nBitsUsed + 7) / 8 ≠ (t.vBits.length + 7) / 8 then (default, r.2)
    else if r.2.nHashUsed ≠ t.vHash.length then (default, r.2)
    else r

end extraction

/-- The positions of the leaves below the node at `height` and `pos`. -/
def leafRange (n height pos : Nat) : List Nat :=
  List.range' (pos * 2 ^ height) (min (2 ^ height) (n - pos * 2 ^ height))

section leaves

variable {n h pos : Nat}

theorem leafRange_zero (hpos : pos < n) : leafRange n 0 pos = [pos] := by
  rw [leafRange, pow_zero, mul_one, Nat.min_eq_left (by omega)]
  rfl

theorem leafRange_eq_nil (hpos : n ≤ pos * 2 ^ h) : leafRange n h pos = [] := by
  rw [leafRange, Nat.sub_eq_zero_of_le hpos, Nat.min_zero]
  rfl

/-- A node's leaves are its left child's followed by its right child's. -/
theorem leafRange_succ : leafRange n (h + 1) pos = leafRange n h (pos * 2) ++ leafRange n h (pos * 2 + 1) := by
  have hsplit : pos * 2 ^ (h + 1) = pos * 2 * 2 ^ h := by ring
  have hright : (pos * 2 + 1) * 2 ^ h = pos * 2 * 2 ^ h + 2 ^ h := by ring
  have hdouble : 2 ^ (h + 1) = 2 ^ h + 2 ^ h := by ring
  rw [leafRange, leafRange, leafRange, hsplit, hright, hdouble]
  rcases le_total (2 ^ h) (n - pos * 2 * 2 ^ h) with hle | hle
  · have hlen : min (2 ^ h + 2 ^ h) (n - pos * 2 * 2 ^ h) =
        2 ^ h + min (2 ^ h) (n - (pos * 2 * 2 ^ h + 2 ^ h)) := by omega
    rw [Nat.min_eq_left hle, hlen, ← List.range'_append_1]
  · have hnil : min (2 ^ h) (n - (pos * 2 * 2 ^ h + 2 ^ h)) = 0 := by omega
    rw [Nat.min_eq_right hle, hnil, List.range'_zero, List.append_nil]
    congr 1
    omega

theorem length_leafRange : (leafRange n h pos).length = min (2 ^ h) (n - pos * 2 ^ h) := by
  rw [leafRange, List.length_range']

/-- The match loop of `TraverseAndBuild` ORs the match flags of exactly the
node's leaves: its shifted bounds do not wrap. -/
theorem parentOfMatch_eq (M : List Bool) (hn : n ≤ 2 ^ 31) (hh : h ≤ 31) (hpos : pos * 2 ^ h < n) :
    parentOfMatchD n M h pos = (leafRange n h pos).any (M.getD · false) := by
  have hpow : 2 ^ h ≤ 2 ^ 31 := Nat.pow_le_pow_right (by decide) hh
  have hfirst : (pos <<< h) % 2 ^ 32 = pos * 2 ^ h := by
    rw [Nat.shiftLeft_eq, Nat.mod_eq_of_lt (by omega)]
  have hlast : ((pos + 1) <<< h) % 2 ^ 32 = pos * 2 ^ h + 2 ^ h := by
    rw [Nat.shiftLeft_eq, Nat.add_mul, one_mul, Nat.mod_eq_of_lt (by omega)]
  have hlen : min (pos * 2 ^ h + 2 ^ h) n - pos * 2 ^ h = min (2 ^ h) (n - pos * 2 ^ h) := by
    generalize pos * 2 ^ h = s at hpos ⊢
    generalize 2 ^ h = d
    omega
  simp only [parentOfMatchD, leafRange, hfirst, hlast, hlen]

end leaves

/-- The matched leaves below a node, in order. -/
def matchedLeaves (M : List Bool) (n height pos : Nat) : List Nat :=
  (leafRange n height pos).filter (M.getD · false)

/-- The positions of the matched txids, in increasing order. -/
def matchedIndices (n : Nat) (M : List Bool) : List Nat := (List.range n).filter (M.getD · false)

section matched

variable {M : List Bool} {n h pos : Nat}

theorem matchedLeaves_succ :
    matchedLeaves M n (h + 1) pos = matchedLeaves M n h (pos * 2) ++ matchedLeaves M n h (pos * 2 + 1) := by
  rw [matchedLeaves, leafRange_succ, List.filter_append]
  rfl

theorem matchedLeaves_zero (hpos : pos < n) :
    matchedLeaves M n 0 pos = if M.getD pos false then [pos] else [] := by
  rw [matchedLeaves, leafRange_zero hpos, List.filter_singleton]
  cases M.getD pos false <;> rfl

theorem matchedLeaves_eq_nil_of_not_parent (hn : n ≤ 2 ^ 31) (hh : h ≤ 31) (hpos : pos * 2 ^ h < n)
    (hf : parentOfMatchD n M h pos = false) : matchedLeaves M n h pos = [] := by
  rw [parentOfMatch_eq M hn hh hpos, List.any_eq_false] at hf
  rw [matchedLeaves, List.filter_eq_nil_iff]
  exact hf

end matched

section build

variable {n : Nat} {V : List α} {M : List Bool}

/-- Below `2 ^ 31` txids `CalcHash` computes the node of the padded tree. -/
theorem calcHash_eq_node (hn : V.length ≤ 2 ^ 31) {h : Nat} (hh : h ≤ 31) (pos : Nat) :
    calcHashD hash V.length V h pos = node hash h pos V := by
  induction h generalizing pos with
  | zero => rw [calcHashD, node_zero]
  | succ h ih =>
    have hchild : 2 * pos + 1 < calcTreeWidth V.length h ↔ chunk h (2 * pos + 1) V ≠ [] := by
      rw [lt_calcTreeWidth_iff hn (by omega), Ne, chunk_eq_nil_iff]
      omega
    simp only [calcHashD, ih (by omega), Nat.mul_comm pos 2]
    by_cases hc : chunk h (2 * pos + 1) V = []
    · rw [if_neg (fun h' => hchild.mp h' hc), node_succ_of_nil hc]
    · rw [if_pos (hchild.mpr hc), node_succ_of_ne_nil hc]

theorem traverseAndBuild_zero (pos : Nat) :
    traverseAndBuildD hash n V M 0 pos = ([parentOfMatchD n M 0 pos], [calcHashD hash n V 0 pos]) := rfl

theorem traverseAndBuild_of_not_parent {h pos : Nat} (hf : parentOfMatchD n M (h + 1) pos = false) :
    traverseAndBuildD hash n V M (h + 1) pos = ([false], [calcHashD hash n V (h + 1) pos]) := by
  rw [traverseAndBuildD, hf]
  rfl

theorem traverseAndBuild_of_parent {h pos : Nat} (hf : parentOfMatchD n M (h + 1) pos = true) :
    traverseAndBuildD hash n V M (h + 1) pos =
      let left := traverseAndBuildD hash n V M h (pos * 2)
      let right :=
        if pos * 2 + 1 < calcTreeWidth n h then traverseAndBuildD hash n V M h (pos * 2 + 1) else ([], [])
      (true :: (left.1 ++ right.1), left.2 ++ right.2) := by
  rw [traverseAndBuildD, hf]
  rfl

/-- Every hash that building stores comes with a flag bit. -/
theorem length_build_hashes_le_bits (h pos : Nat) :
    (traverseAndBuildD hash n V M h pos).2.length ≤ (traverseAndBuildD hash n V M h pos).1.length := by
  induction h generalizing pos with
  | zero => simp [traverseAndBuildD]
  | succ h ih =>
    have hl := ih (pos * 2)
    have hr := ih (pos * 2 + 1)
    rw [traverseAndBuildD]
    split_ifs <;> simp <;> omega

/-- A walk below height `h` visits fewer than `2 ^ (h + 1)` nodes. -/
theorem length_build_bits_lt (h pos : Nat) :
    (traverseAndBuildD hash n V M h pos).1.length < 2 ^ (h + 1) := by
  induction h generalizing pos with
  | zero => simp [traverseAndBuildD]
  | succ h ih =>
    have hl := ih (pos * 2)
    have hr := ih (pos * 2 + 1)
    have hpow : 2 ^ (h + 1 + 1) = 2 ^ (h + 1) + 2 ^ (h + 1) := by ring
    rw [traverseAndBuildD]
    split_ifs <;> simp <;> omega

/-- Building stores at most one hash per leaf below the node. -/
theorem length_build_hashes_le (hn : V.length ≤ 2 ^ 31) {h : Nat} (hh : h ≤ 31) {pos : Nat}
    (hpos : pos * 2 ^ h < V.length) :
    (traverseAndBuildD hash V.length V M h pos).2.length ≤ (leafRange V.length h pos).length := by
  induction h generalizing pos with
  | zero =>
    rw [traverseAndBuild_zero, leafRange_zero (by simpa using hpos)]
    rfl
  | succ h ih =>
    have hleft : pos * 2 * 2 ^ h < V.length := leftChild_lt hpos
    cases hf : parentOfMatchD V.length M (h + 1) pos with
    | false =>
      rw [traverseAndBuild_of_not_parent hash hf, length_leafRange]
      have hd : 0 < 2 ^ (h + 1) := Nat.two_pow_pos _
      simp only [List.length_singleton]
      omega
    | true =>
      rw [traverseAndBuild_of_parent hash hf, leafRange_succ, List.length_append]
      have hL := ih (by omega) hleft
      by_cases hc : pos * 2 + 1 < calcTreeWidth V.length h
      · have hR := ih (by omega) ((lt_calcTreeWidth_iff hn (by omega)).mp hc)
        simp only [if_pos hc, List.length_append]
        omega
      · simp only [if_neg hc, List.length_append, List.length_nil]
        omega

/-- When every leaf matches, building stores all txids below the node, in order. -/
theorem build_hashes_of_all_match (hn : V.length ≤ 2 ^ 31) (hall : ∀ i < V.length, M.getD i false = true)
    {h : Nat} (hh : h ≤ 31) {pos : Nat} (hpos : pos * 2 ^ h < V.length) :
    (traverseAndBuildD hash V.length V M h pos).2 = chunk h pos V := by
  induction h generalizing pos with
  | zero =>
    have hlt : pos < V.length := by simpa using hpos
    rw [traverseAndBuild_zero, calcHashD, chunk_zero, List.drop_eq_getElem_cons hlt,
      List.getD_eq_getElem _ _ hlt]
    rfl
  | succ h ih =>
    have hleft : pos * 2 * 2 ^ h < V.length := leftChild_lt hpos
    have hf : parentOfMatchD V.length M (h + 1) pos = true := by
      rw [parentOfMatch_eq M hn hh hpos, List.any_eq_true]
      refine ⟨pos * 2 ^ (h + 1), ?_, hall _ hpos⟩
      rw [leafRange, List.mem_range'_1]
      have hd : 0 < 2 ^ (h + 1) := Nat.two_pow_pos _
      omega
    rw [traverseAndBuild_of_parent hash hf, ← List.take_append_drop (2 ^ h) (chunk (h + 1) pos V),
      take_chunk_succ, drop_chunk_succ, Nat.mul_comm 2 pos]
    simp only [ih (by omega) hleft]
    by_cases hc : pos * 2 + 1 < calcTreeWidth V.length h
    · rw [if_pos hc, ih (by omega) ((lt_calcTreeWidth_iff hn (by omega)).mp hc)]
    · have hright : ¬(pos * 2 + 1) * 2 ^ h < V.length := (lt_calcTreeWidth_iff hn (by omega)).not.mp hc
      rw [if_neg hc, (chunk_eq_nil_iff.2 (by omega) : chunk h (pos * 2 + 1) V = [])]

theorem create_eq (hV : V.length < 2 ^ 32) :
    CPartialMerkleTree.createD hash V M =
      ⟨V.length, (traverseAndBuildD hash V.length V M (treeHeight V.length) 0).1,
        (traverseAndBuildD hash V.length V M (treeHeight V.length) 0).2, false⟩ := by
  simp only [CPartialMerkleTree.createD, Nat.mod_eq_of_lt hV]

/-- A built tree stores at most one hash per txid. -/
theorem length_create_vHash_le (hV0 : 0 < V.length) (hn : V.length ≤ 2 ^ 31) :
    (CPartialMerkleTree.createD hash V M).vHash.length ≤ V.length := by
  have hH31 : Nat.clog 2 V.length ≤ 31 := Nat.clog_le_of_le_pow hn
  have hfull : V.length ≤ 2 ^ Nat.clog 2 V.length := Nat.le_pow_clog (by decide) _
  have hroot : (0 : Nat) * 2 ^ Nat.clog 2 V.length < V.length := by simpa using hV0
  have hle : (traverseAndBuildD hash V.length V M (Nat.clog 2 V.length) 0).2.length ≤
      (leafRange V.length (Nat.clog 2 V.length) 0).length := length_build_hashes_le hash hn hH31 hroot
  rw [length_leafRange, zero_mul, Nat.sub_zero, Nat.min_eq_right hfull] at hle
  rw [create_eq hash (by omega), treeHeight_eq_clog hn]
  exact hle

theorem length_create_vBits_lt (hn : V.length ≤ 2 ^ 31) :
    (CPartialMerkleTree.createD hash V M).vBits.length < 2 ^ (Nat.clog 2 V.length + 1) := by
  rw [create_eq hash (by omega), treeHeight_eq_clog hn]
  exact length_build_bits_lt hash _ _

/-- When every txid matches, the built tree stores all of them. -/
theorem create_vHash_of_all_match (hV0 : 0 < V.length) (hn : V.length ≤ 2 ^ 31)
    (hall : ∀ i < V.length, M.getD i false = true) : (CPartialMerkleTree.createD hash V M).vHash = V := by
  have hH31 : Nat.clog 2 V.length ≤ 31 := Nat.clog_le_of_le_pow hn
  have hfull : V.length ≤ 2 ^ Nat.clog 2 V.length := Nat.le_pow_clog (by decide) _
  have hroot : (0 : Nat) * 2 ^ Nat.clog 2 V.length < V.length := by simpa using hV0
  rw [create_eq hash (by omega), treeHeight_eq_clog hn]
  show (traverseAndBuildD hash V.length V M (Nat.clog 2 V.length) 0).2 = V
  rw [build_hashes_of_all_match hash hn hall hH31 hroot, chunk, zero_mul, List.drop_zero,
    List.take_of_length_le hfull]

end build

section inRange

variable {V : List α} {M : List Bool}

/-- The match loop reading only indices within `vMatch` ORs what `getD`
reads. -/
theorem foldlM_orRead_eq_some :
    ∀ (l : List Nat) (b : Bool), (∀ p ∈ l, p < M.length) →
      l.foldlM (fun f p => (f || ·) <$> M[p]?) b = some (b || l.any (M.getD · false))
  | [], b, _ => by simp
  | p :: l, b, hl => by
    have hp : p < M.length := hl p List.mem_cons_self
    have ih := foldlM_orRead_eq_some l (b || M[p]) fun q hq => hl q (List.mem_cons_of_mem p hq)
    rw [List.foldlM_cons, List.getElem?_eq_getElem hp]
    simp only [Option.map_eq_map, Option.map_some, Option.bind_eq_bind, Option.bind_some] at ih ⊢
    rw [ih, List.any_cons, List.getD_eq_getElem _ _ hp, Bool.or_assoc]

/-- With a match vector at least as long as the count, every read of the
match loop is in range. -/
theorem parentOfMatch_eq_some {n : Nat} (hM : n ≤ M.length) (h pos : Nat) :
    parentOfMatch n M h pos = some (parentOfMatchD n M h pos) := by
  unfold parentOfMatch parentOfMatchD
  dsimp only
  rw [foldlM_orRead_eq_some _ _ fun p hp => ?_, Bool.false_or]
  rw [List.mem_range'_1] at hp
  omega

/-- Below `2 ^ 31` txids `CalcHash` of a node of the tree reads only txids
that exist. -/
theorem calcHash_eq_some (hn : V.length ≤ 2 ^ 31) {h : Nat} (hh : h ≤ 31) {pos : Nat}
    (hpos : pos * 2 ^ h < V.length) :
    calcHash hash V.length V h pos = some (calcHashD hash V.length V h pos) := by
  induction h generalizing pos with
  | zero =>
    have hlt : pos < V.length := by simpa using hpos
    rw [calcHash, calcHashD, List.getElem?_eq_getElem hlt, List.getD_eq_getElem _ _ hlt]
  | succ h ih =>
    have hleft : pos * 2 * 2 ^ h < V.length := leftChild_lt hpos
    by_cases hc : pos * 2 + 1 < calcTreeWidth V.length h
    · have hright := ih (by omega) ((lt_calcTreeWidth_iff hn (by omega)).mp hc)
      simp only [calcHash, calcHashD, ih (by omega) hleft, hright, hc, if_true, Option.bind_eq_bind,
        Option.bind_some, Option.pure_def]
    · simp only [calcHash, calcHashD, ih (by omega) hleft, hc, if_false, Option.bind_eq_bind,
        Option.bind_some, Option.pure_def]

/-- With a match vector as long as the txids, below `2 ^ 31` of them, the walk
of `TraverseAndBuild` from a node of the tree makes no read out of range. -/
theorem traverseAndBuild_eq_some (hM : V.length ≤ M.length) (hn : V.length ≤ 2 ^ 31) {h : Nat}
    (hh : h ≤ 31) {pos : Nat} (hpos : pos * 2 ^ h < V.length) :
    traverseAndBuild hash V.length V M h pos = some (traverseAndBuildD hash V.length V M h pos) := by
  induction h generalizing pos with
  | zero =>
    rw [traverseAndBuild, parentOfMatch_eq_some hM, calcHash_eq_some hash hn hh hpos]
    rfl
  | succ h ih =>
    have hleft : pos * 2 * 2 ^ h < V.length := leftChild_lt hpos
    cases hf : parentOfMatchD V.length M (h + 1) pos with
    | false =>
      simp only [traverseAndBuild, traverseAndBuildD, parentOfMatch_eq_some hM, hf,
        calcHash_eq_some hash hn hh hpos, Option.bind_eq_bind, Option.bind_some, Option.pure_def]
      rfl
    | true =>
      by_cases hc : pos * 2 + 1 < calcTreeWidth V.length h
      · have hright := ih (by omega) ((lt_calcTreeWidth_iff hn (by omega)).mp hc)
        simp only [traverseAndBuild, traverseAndBuildD, parentOfMatch_eq_some hM, hf, ih (by omega) hleft,
          hright, hc, if_true, Option.bind_eq_bind, Option.bind_some, Option.pure_def]
        rfl
      · simp only [traverseAndBuild, traverseAndBuildD, parentOfMatch_eq_some hM, hf, ih (by omega) hleft,
          hc, if_false, Option.bind_eq_bind, Option.bind_some, Option.pure_def]
        rfl

/-- The constructor over a non-empty list of fewer than `2 ^ 31` txids, with a
match vector at least as long, is defined and builds `createD`. -/
theorem create_eq_some (hV0 : 0 < V.length) (hn : V.length ≤ 2 ^ 31) (hM : V.length ≤ M.length) :
    CPartialMerkleTree.create hash V M = some (CPartialMerkleTree.createD hash V M) := by
  have hH31 : treeHeight V.length ≤ 31 := by
    rw [treeHeight_eq_clog hn]
    exact Nat.clog_le_of_le_pow hn
  have hroot : (0 : Nat) * 2 ^ treeHeight V.length < V.length := by simpa using hV0
  unfold CPartialMerkleTree.create CPartialMerkleTree.createD
  simp only [Nat.mod_eq_of_lt (show V.length < 2 ^ 32 by omega),
    traverseAndBuild_eq_some hash hM hn hH31 hroot, Option.map_some]

end inRange

section streams

variable {β : Type} {l : List β} {k : Nat}

theorem drop_add_length_of_drop_eq {a r : List β} (h : l.drop k = a ++ r) : l.drop (k + a.length) = r := by
  rw [← List.drop_drop, h, List.drop_left]

theorem drop_eq_cons_spec {a : β} {r : List β} (d : β) (h : l.drop k = a :: r) :
    k < l.length ∧ l.getD k d = a ∧ l.drop (k + 1) = r := by
  have hk : k < l.length := by
    have hlen := congrArg List.length h
    rw [List.length_drop, List.length_cons] at hlen
    omega
  rw [List.drop_eq_getElem_cons hk, List.cons.injEq] at h
  exact ⟨hk, by rw [List.getD_eq_getElem _ _ hk, h.1], h.2⟩

end streams

/-- The extraction advanced past a subtree that took `bits` flag bits and
`hashes` hashes and matched `leaves`. -/
def Extraction.advance (e : Extraction α) (V : List α) (bits hashes : Nat) (leaves : List Nat) :
    Extraction α :=
  { e with
    nBitsUsed := e.nBitsUsed + bits
    nHashUsed := e.nHashUsed + hashes
    vMatch := e.vMatch ++ leaves.map (V.getD · default)
    vnIndex := e.vnIndex ++ leaves }

section extract

variable {V : List α} {M : List Bool} {t : CPartialMerkleTree α} {e : Extraction α}

theorem Extraction.advance_bit (e : Extraction α) (V : List α) :
    { e with nBitsUsed := e.nBitsUsed + 1 } = e.advance V 1 0 [] := by
  simp [Extraction.advance]

theorem Extraction.advance_advance (e : Extraction α) (V : List α) (b₁ h₁ b₂ h₂ : Nat) (L₁ L₂ : List Nat) :
    (e.advance V b₁ h₁ L₁).advance V b₂ h₂ L₂ = e.advance V (b₁ + b₂) (h₁ + h₂) (L₁ ++ L₂) := by
  simp [Extraction.advance, Nat.add_assoc]

theorem extractHash_of_drop {x : α} {rest : List α} (hhashes : t.vHash.drop e.nHashUsed = x :: rest)
    (height pos : Nat) (b : Bool) :
    extractHash t height pos b e =
      (x, if height = 0 ∧ b = true then
        { e with nHashUsed := e.nHashUsed + 1, vMatch := e.vMatch ++ [x], vnIndex := e.vnIndex ++ [pos] }
      else { e with nHashUsed := e.nHashUsed + 1 }) := by
  obtain ⟨hk, hx, -⟩ := drop_eq_cons_spec default hhashes
  rw [extractHash, if_neg (by omega), hx]
  split_ifs <;> rfl

variable [DecidableEq α]

theorem traverseAndExtract_of_stop {b : Bool} {rest : List Bool} (hbits : t.vBits.drop e.nBitsUsed = b :: rest)
    {height : Nat} (hstop : height = 0 ∨ b = false) (pos : Nat) :
    traverseAndExtract hash t height pos e = extractHash t height pos b { e with nBitsUsed := e.nBitsUsed + 1 } := by
  obtain ⟨hk, hb, -⟩ := drop_eq_cons_spec false hbits
  rw [traverseAndExtract, if_neg (by omega), hb]
  rcases hstop with rfl | rfl
  · rfl
  · cases height <;> rfl

theorem traverseAndExtract_of_parent {rest : List Bool} (hbits : t.vBits.drop e.nBitsUsed = true :: rest)
    (height pos : Nat) :
    traverseAndExtract hash t (height + 1) pos e =
      let left := traverseAndExtract hash t height (pos * 2) { e with nBitsUsed := e.nBitsUsed + 1 }
      if pos * 2 + 1 < calcTreeWidth t.nTransactions height then
        let right := traverseAndExtract hash t height (pos * 2 + 1) left.2
        (hash left.1 right.1, if right.1 = left.1 then { right.2 with fBad := true } else right.2)
      else (hash left.1 left.1, left.2) := by
  obtain ⟨hk, hb, -⟩ := drop_eq_cons_spec false hbits
  rw [traverseAndExtract, if_neg (by omega), hb]
  rfl

/-- Extraction walks the subtree the way building did: from the bits and
hashes that building stored for a node, followed by anything, it returns the
node of the padded tree and advances past exactly what the node took, adding
its matched leaves. The induction is on the height; the right subtree is read
where the left one ended, and the two differ by `hsib`, so `fBad` stays as
it was. -/
theorem traverseAndExtract_build (htn : t.nTransactions = V.length) (hn : V.length ≤ 2 ^ 31)
    (hsib : ∀ k j, chunk k (2 * j + 1) V ≠ [] → node hash k (2 * j) V ≠ node hash k (2 * j + 1) V)
    {h : Nat} (hh : h ≤ 31) {pos : Nat} (hpos : pos * 2 ^ h < V.length) (e : Extraction α)
    (restBits : List Bool) (restHashes : List α)
    (hbits : t.vBits.drop e.nBitsUsed = (traverseAndBuildD hash V.length V M h pos).1 ++ restBits)
    (hhashes : t.vHash.drop e.nHashUsed = (traverseAndBuildD hash V.length V M h pos).2 ++ restHashes) :
    traverseAndExtract hash t h pos e =
      (node hash h pos V, e.advance V (traverseAndBuildD hash V.length V M h pos).1.length
        (traverseAndBuildD hash V.length V M h pos).2.length (matchedLeaves M V.length h pos)) := by
  induction h generalizing pos e restBits restHashes with
  | zero =>
    have hlt : pos < V.length := by simpa using hpos
    have hf : parentOfMatchD V.length M 0 pos = M.getD pos false := by
      rw [parentOfMatch_eq M hn (by omega) hpos, leafRange_zero hlt]
      simp
    rw [traverseAndBuild_zero, hf] at hbits hhashes ⊢
    have hhashes' : t.vHash.drop ({ e with nBitsUsed := e.nBitsUsed + 1 } : Extraction α).nHashUsed =
        calcHashD hash V.length V 0 pos :: restHashes := hhashes
    rw [traverseAndExtract_of_stop hash hbits (Or.inl rfl), extractHash_of_drop hhashes', calcHashD,
      matchedLeaves_zero hlt]
    cases M.getD pos false <;> simp [Extraction.advance, node_zero]
  | succ h ih =>
    have hleft : pos * 2 * 2 ^ h < V.length := leftChild_lt hpos
    by_cases hf : parentOfMatchD V.length M (h + 1) pos = true
    · rw [traverseAndBuild_of_parent hash hf] at hbits hhashes ⊢
      simp only [List.cons_append, List.append_assoc] at hbits hhashes
      obtain ⟨-, -, hdrop⟩ := drop_eq_cons_spec false hbits
      have hL := ih (by omega) hleft (e.advance V 1 0 []) _ _ hdrop (by simpa [Extraction.advance] using hhashes)
      rw [traverseAndExtract_of_parent hash hbits, htn, Extraction.advance_bit e V]
      simp only [hL, Extraction.advance_advance]
      by_cases hc : pos * 2 + 1 < calcTreeWidth V.length h
      · have hright : (pos * 2 + 1) * 2 ^ h < V.length := (lt_calcTreeWidth_iff hn (by omega)).mp hc
        have hne : chunk h (2 * pos + 1) V ≠ [] := by
          rw [Ne, chunk_eq_nil_iff, Nat.mul_comm 2 pos]
          omega
        have hdiff : node hash h (pos * 2 + 1) V ≠ node hash h (pos * 2) V := by
          rw [Nat.mul_comm pos 2]
          exact (hsib h pos hne).symm
        simp only [if_pos hc] at hdrop hhashes ⊢
        have hR := ih (by omega) hright (e.advance V (1 + (traverseAndBuildD hash V.length V M h (pos * 2)).1.length)
          (0 + (traverseAndBuildD hash V.length V M h (pos * 2)).2.length) ([] ++ matchedLeaves M V.length h (pos * 2)))
          restBits restHashes
          (by simpa [Extraction.advance, Nat.add_assoc] using drop_add_length_of_drop_eq hdrop)
          (by simpa [Extraction.advance] using drop_add_length_of_drop_eq hhashes)
        simp only [hR, if_neg hdiff, Extraction.advance_advance, matchedLeaves_succ]
        rw [node_succ_of_ne_nil hne, Nat.mul_comm 2 pos]
        simp [Extraction.advance]
        omega
      · have hright : ¬(pos * 2 + 1) * 2 ^ h < V.length := (lt_calcTreeWidth_iff hn (by omega)).not.mp hc
        have hnil : chunk h (2 * pos + 1) V = [] := by
          rw [chunk_eq_nil_iff, Nat.mul_comm 2 pos]
          omega
        simp only [if_neg hc]
        have hMR : matchedLeaves M V.length h (pos * 2 + 1) = [] := by
          rw [matchedLeaves, leafRange_eq_nil (Nat.le_of_not_lt hright)]
          rfl
        rw [node_succ_of_nil hnil, Nat.mul_comm 2 pos, matchedLeaves_succ, hMR]
        simp [Extraction.advance]
        omega
    · have hf' : parentOfMatchD V.length M (h + 1) pos = false := by simpa using hf
      rw [traverseAndBuild_of_not_parent hash hf'] at hbits hhashes ⊢
      have hhashes' : t.vHash.drop ({ e with nBitsUsed := e.nBitsUsed + 1 } : Extraction α).nHashUsed =
          calcHashD hash V.length V (h + 1) pos :: restHashes := hhashes
      rw [traverseAndExtract_of_stop hash hbits (Or.inr rfl), extractHash_of_drop hhashes',
        calcHash_eq_node hash hn hh, matchedLeaves_eq_nil_of_not_parent hn hh hpos hf']
      simp [Extraction.advance]

/-- `ExtractMatches` of a built tree, its bits padded to whole bytes, returns
the root that `ComputeMerkleRoot` computes, the matched txids and their
positions. -/
theorem extractMatches_create {V : List α} {M : List Bool} (hV0 : 0 < V.length) (hn : V.length ≤ 2 ^ 31)
    (hsib : ∀ k j, chunk k (2 * j + 1) V ≠ [] → node hash k (2 * j) V ≠ node hash k (2 * j + 1) V)
    (pad : List Bool)
    (hpad : ((CPartialMerkleTree.createD hash V M).vBits.length + 7) / 8 =
      ((CPartialMerkleTree.createD hash V M).vBits.length + pad.length + 7) / 8)
    (vnIndex : List Nat) :
    extractMatches hash
        { CPartialMerkleTree.createD hash V M with
          vBits := (CPartialMerkleTree.createD hash V M).vBits ++ pad
          fBad := false }
        vnIndex =
      ((computeMerkleRoot hash V).1,
        { nBitsUsed := (CPartialMerkleTree.createD hash V M).vBits.length
          nHashUsed := (CPartialMerkleTree.createD hash V M).vHash.length
          vMatch := (matchedIndices V.length M).map (V.getD · default)
          vnIndex := vnIndex ++ matchedIndices V.length M
          fBad := false }) := by
  have hH : treeHeight V.length = Nat.clog 2 V.length := treeHeight_eq_clog hn
  have hH31 : Nat.clog 2 V.length ≤ 31 := Nat.clog_le_of_le_pow hn
  have hfull : V.length ≤ 2 ^ Nat.clog 2 V.length := Nat.le_pow_clog (by decide) _
  have hroot : (0 : Nat) * 2 ^ Nat.clog 2 V.length < V.length := by simpa using hV0
  have hrange : matchedLeaves M V.length (Nat.clog 2 V.length) 0 = matchedIndices V.length M := by
    rw [matchedLeaves, leafRange, zero_mul, Nat.sub_zero, Nat.min_eq_right hfull, ← List.range_eq_range',
      matchedIndices]
  rw [create_eq hash (by omega)] at hpad ⊢
  simp only [hH] at hpad ⊢
  have hhashes : (traverseAndBuildD hash V.length V M (Nat.clog 2 V.length) 0).2.length ≤
      (leafRange V.length (Nat.clog 2 V.length) 0).length := length_build_hashes_le hash hn hH31 hroot
  rw [length_leafRange, zero_mul, Nat.sub_zero, Nat.min_eq_right hfull] at hhashes
  have hbits : (traverseAndBuildD hash V.length V M (Nat.clog 2 V.length) 0).2.length ≤
      (traverseAndBuildD hash V.length V M (Nat.clog 2 V.length) 0).1.length :=
    length_build_hashes_le_bits hash _ _
  let t : CPartialMerkleTree α := ⟨V.length, (traverseAndBuildD hash V.length V M (Nat.clog 2 V.length) 0).1 ++ pad,
      (traverseAndBuildD hash V.length V M (Nat.clog 2 V.length) 0).2, false⟩
  let e : Extraction α := ⟨0, 0, [], vnIndex, false⟩
  have hdropBits : t.vBits.drop e.nBitsUsed = (traverseAndBuildD hash V.length V M (Nat.clog 2 V.length) 0).1 ++ pad :=
    rfl
  have hdropHashes : t.vHash.drop e.nHashUsed = (traverseAndBuildD hash V.length V M (Nat.clog 2 V.length) 0).2 ++ [] :=
    (List.append_nil _).symm
  have hx := traverseAndExtract_build hash rfl hn hsib hH31 hroot e pad [] hdropBits hdropHashes
  rw [extractMatches]
  simp only [hH]
  rw [if_neg (by omega), if_neg (by omega), if_neg (by simp; omega), hx, hrange, computeMerkleRoot_fst_eq_node hV0]
  simp [Extraction.advance, e, hpad]
end extract

end Membercoin
