import Membercoin.Lib.MerkleTree
import Membercoin.Consensus.Merkle

/-!
# The levels of `ComputeMerkleRoot` as a tree

The `k`-th level that the loop of `ComputeMerkleRoot` computes holds the
nodes of level `k` of the padded hash tree (`MerkleTree.node`), one for each
non-empty block of `2^k` leaves (`merkleLevel_iterate_getD`). So the branch
read off the levels is the list of the tree's siblings along the path to the
leaf (`levelBranch_eq_branch`), which is the form in which the streaming
`MerkleComputation` is compared with it.
-/

namespace Membercoin

open MerkleTree

variable {α : Type} [Inhabited α] {hash64 : α → α → α}

/-- Level `k` has a node for every non-empty block of `2^k` leaves. -/
theorem lt_merkleLevel_iterate_length_iff (k : Nat) {hashes : List α} {j : Nat} :
    j < ((merkleLevel hash64)^[k] hashes).length ↔ j * 2 ^ k < hashes.length := by
  induction k generalizing j with
  | zero => simp
  | succ k ih =>
    rw [Function.iterate_succ_apply', merkleLevel_length]
    have h2j := @ih (2 * j)
    have hpow : j * 2 ^ (k + 1) = 2 * j * 2 ^ k := by ring
    rw [hpow]
    omega

/-- The hashes of level `k` are the nodes of level `k` of the padded tree. -/
theorem merkleLevel_iterate_getD (k : Nat) {hashes : List α} {j : Nat}
    (hj : j * 2 ^ k < hashes.length) :
    ((merkleLevel hash64)^[k] hashes).getD j default = node hash64 k j hashes := by
  induction k generalizing j with
  | zero => rw [Function.iterate_zero_apply, node_zero]
  | succ k ih =>
    have hpow : j * 2 ^ (k + 1) = 2 * j * 2 ^ k := by ring
    rw [hpow] at hj
    have hlt : 2 * j < ((merkleLevel hash64)^[k] hashes).length :=
      (lt_merkleLevel_iterate_length_iff k).mpr hj
    have hnode : (merkleLevel hash64 _).getD _ _ = _ := merkleLevel_getD hlt
    rw [show 2 * j / 2 = j by omega, if_neg (by omega)] at hnode
    rw [Function.iterate_succ_apply', hnode, ih hj, node_succ]
    congr 1
    by_cases hnext : (2 * j + 1) * 2 ^ k < hashes.length
    · have hne : chunk k (2 * j + 1) hashes ≠ [] := by
        rw [Ne, chunk_eq_nil_iff]
        omega
      rw [if_neg hne, getD_of_lt ((lt_merkleLevel_iterate_length_iff k).mpr hnext) _ default,
        ih hnext]
    · have hnil : chunk k (2 * j + 1) hashes = [] := chunk_eq_nil_iff.2 (by omega)
      have hout : ((merkleLevel hash64)^[k] hashes).length ≤ 2 * j + 1 := by
        by_contra hin
        exact hnext ((lt_merkleLevel_iterate_length_iff k).mp
          (show 2 * j + 1 < ((merkleLevel hash64)^[k] hashes).length by omega))
      rw [if_pos hnil, List.getD_eq_default _ _ hout]

/-- The entry that `levelBranch` reads at level `k` is the tree's sibling there. -/
theorem merkleLevel_iterate_sibling (k : Nat) {hashes : List α} {pos : Nat}
    (hpos : pos < hashes.length) :
    ((merkleLevel hash64)^[k] hashes).getD
        (if pos / 2 ^ k % 2 = 1 then pos / 2 ^ k - 1 else pos / 2 ^ k + 1)
        (((merkleLevel hash64)^[k] hashes).getD (pos / 2 ^ k) default) =
      sibling hash64 k pos hashes := by
  have hq : pos / 2 ^ k * 2 ^ k < hashes.length :=
    lt_of_le_of_lt (Nat.div_mul_le_self pos (2 ^ k)) hpos
  have hqle : (pos / 2 ^ k - 1) * 2 ^ k ≤ pos / 2 ^ k * 2 ^ k :=
    Nat.mul_le_mul_right _ (Nat.sub_le _ 1)
  rw [sibling]
  split_ifs with hodd hnil
  · rw [getD_of_lt ((lt_merkleLevel_iterate_length_iff k).mpr (by omega)) _ default,
      merkleLevel_iterate_getD k (by omega)]
  · have hout : ((merkleLevel hash64)^[k] hashes).length ≤ pos / 2 ^ k + 1 := by
      by_contra hin
      have hnext := (lt_merkleLevel_iterate_length_iff k).mp
        (show pos / 2 ^ k + 1 < ((merkleLevel hash64)^[k] hashes).length by omega)
      exact (chunk_eq_nil_iff.1 hnil).not_gt hnext
    rw [List.getD_eq_default _ _ hout, merkleLevel_iterate_getD k hq]
  · have hnext : (pos / 2 ^ k + 1) * 2 ^ k < hashes.length := by
      by_contra hout
      exact hnil (chunk_eq_nil_iff.2 (by omega))
    rw [getD_of_lt ((lt_merkleLevel_iterate_length_iff k).mpr hnext) _ default,
      merkleLevel_iterate_getD k hnext]

/-- Level `k` has more than one hash exactly below the tree's height. -/
theorem one_lt_merkleLevel_iterate_length_iff (k : Nat) {hashes : List α} :
    1 < ((merkleLevel hash64)^[k] hashes).length ↔ k < Nat.clog 2 hashes.length := by
  rw [lt_merkleLevel_iterate_length_iff k, one_mul, Nat.lt_clog_iff_pow_lt (by decide)]

/-- From level `k` on, `levelBranch` lists the siblings of the path. -/
theorem levelBranch_iterate (k : Nat) {hashes : List α} {pos : Nat}
    (hpos : pos < hashes.length) :
    levelBranch hash64 ((merkleLevel hash64)^[k] hashes) (pos / 2 ^ k) =
      (List.range (Nat.clog 2 hashes.length - k)).map (fun ℓ => sibling hash64 (k + ℓ) pos hashes) := by
  obtain ⟨d, hd⟩ : ∃ d, d = Nat.clog 2 hashes.length - k := ⟨_, rfl⟩
  induction d generalizing k with
  | zero =>
    have hlen : ¬ 1 < ((merkleLevel hash64)^[k] hashes).length := by
      rw [one_lt_merkleLevel_iterate_length_iff]
      omega
    rw [levelBranch, if_neg hlen, ← hd, List.range_zero, List.map_nil]
  | succ d ih =>
    have hlen : 1 < ((merkleLevel hash64)^[k] hashes).length := by
      rw [one_lt_merkleLevel_iterate_length_iff]
      omega
    have hup : pos / 2 ^ k / 2 = pos / 2 ^ (k + 1) := by
      rw [Nat.div_div_eq_div_mul, pow_succ]
    have hnext : merkleLevel hash64 ((merkleLevel hash64)^[k] hashes) =
        (merkleLevel hash64)^[k + 1] hashes := (Function.iterate_succ_apply' _ k hashes).symm
    rw [levelBranch, if_pos hlen, merkleLevel_iterate_sibling k hpos, hnext, hup, ih (k + 1) (by omega),
      show Nat.clog 2 hashes.length - (k + 1) = d by omega, ← hd, List.range_succ_eq_map, List.map_cons, List.map_map]
    congr 2
    funext ℓ
    rw [Function.comp_apply, Nat.add_zero, Nat.add_right_comm, Nat.add_assoc]

/-- The branch read off the levels of `ComputeMerkleRoot` is the list of the
tree's siblings along the path to the leaf, one for each level below the root. -/
theorem levelBranch_eq_branch {hashes : List α} {pos : Nat} (hpos : pos < hashes.length) :
    levelBranch hash64 hashes pos = branch hash64 (Nat.clog 2 hashes.length) pos hashes := by
  have h : levelBranch hash64 ((merkleLevel hash64)^[0] hashes) (pos / 2 ^ 0) = _ :=
    levelBranch_iterate 0 hpos
  simpa [branch] using h

/-- The loop of `ComputeMerkleRoot` stops at the level of the tree's height. -/
theorem computeMerkleRootLoop_fst_eq_iterate [DecidableEq α] (hashes : List α) (mutation : Bool) :
    (computeMerkleRootLoop hash64 hashes mutation).1 =
      (merkleLevel hash64)^[Nat.clog 2 hashes.length] hashes := by
  induction hashes, mutation using computeMerkleRootLoop.induct hash64 with
  | case1 hashes mutation hlen ih =>
    have hclog : Nat.clog 2 hashes.length = Nat.clog 2 (merkleLevel hash64 hashes).length + 1 := by
      rw [merkleLevel_length, Nat.clog_of_two_le (by decide) (by omega),
        show hashes.length + 2 - 1 = hashes.length + 1 by omega]
    rw [computeMerkleRootLoop_of_one_lt hlen, ih, hclog, Function.iterate_succ_apply]
  | case2 hashes mutation hlen =>
    rw [computeMerkleRootLoop_of_le_one (by omega), Nat.clog_of_right_le_one (by omega),
      Function.iterate_zero_apply]

/-- The root that `ComputeMerkleRoot` returns is the root of the padded tree. -/
theorem computeMerkleRoot_fst_eq_node [DecidableEq α] {hashes : List α} (hpos : 0 < hashes.length) :
    (computeMerkleRoot hash64 hashes).1 = node hash64 (Nat.clog 2 hashes.length) 0 hashes := by
  show (computeMerkleRootLoop hash64 hashes false).1.headD default = _
  rw [computeMerkleRootLoop_fst_eq_iterate, List.headD_eq_head?_getD, List.head?_eq_getElem?,
    ← List.getD_eq_getElem?_getD, merkleLevel_iterate_getD _ (by simpa using hpos)]

end Membercoin
