import Mathlib

/-!
# Hash trees with a padded right edge

A list of leaves is hashed as a binary tree of width `2^k` in which a node
whose right subtree holds no leaf hashes its left child with itself, the rule
that Bitcoin's merkle tree applies at every level of odd length. `chunk k j xs`
is the `j`-th block of `2^k` leaves and `node hash k j xs` the hash of the
tree over it. A node is the hash of its two children, with a missing right
child replaced by the left one (`node_succ`); this is the one fact that a
level-by-level or a streaming computation of such a tree is proved against.
-/

namespace MerkleTree

variable {α : Type}

/-- The `j`-th block of `2^k` leaves (shorter, or empty, at the end). -/
def chunk (k j : Nat) (xs : List α) : List α := (xs.drop (j * 2 ^ k)).take (2 ^ k)

section chunk

variable {k j : Nat} {xs : List α}

theorem chunk_length : (chunk k j xs).length = min (2 ^ k) (xs.length - j * 2 ^ k) := by
  simp [chunk]

theorem chunk_eq_nil_iff : chunk k j xs = [] ↔ xs.length ≤ j * 2 ^ k := by
  rw [← List.length_eq_zero_iff, chunk_length]
  have hpos : 0 < 2 ^ k := Nat.two_pow_pos k
  omega

/-- The first half of a block is a block one level down. -/
theorem take_chunk_succ : (chunk (k + 1) j xs).take (2 ^ k) = chunk k (2 * j) xs := by
  have hpow : 2 ^ k ≤ 2 ^ (k + 1) := Nat.pow_le_pow_right (by decide) (by omega)
  rw [chunk, chunk, List.take_take, Nat.min_eq_left hpow, pow_succ]
  congr 2
  ring

/-- The second half of a block is the next block one level down. -/
theorem drop_chunk_succ : (chunk (k + 1) j xs).drop (2 ^ k) = chunk k (2 * j + 1) xs := by
  rw [chunk, chunk, List.drop_take, List.drop_drop, pow_succ]
  congr 2
  · omega
  · ring

theorem chunk_succ_length_le_iff :
    (chunk (k + 1) j xs).length ≤ 2 ^ k ↔ chunk k (2 * j + 1) xs = [] := by
  rw [chunk_eq_nil_iff, chunk_length, pow_succ]
  have hpos : 0 < 2 ^ k := Nat.two_pow_pos k
  constructor
  · intro h
    rcases Nat.le_total (2 ^ k * 2) (xs.length - j * (2 ^ k * 2)) with hle | hle
    · rw [Nat.min_eq_left hle] at h
      omega
    · rw [Nat.min_eq_right hle] at h
      have : j * (2 ^ k * 2) = 2 * j * 2 ^ k := by ring
      have : (2 * j + 1) * 2 ^ k = 2 * j * 2 ^ k + 2 ^ k := by ring
      omega
  · intro h
    have : j * (2 ^ k * 2) = 2 * j * 2 ^ k := by ring
    have : (2 * j + 1) * 2 ^ k = 2 * j * 2 ^ k + 2 ^ k := by ring
    have := Nat.min_le_right (2 ^ k * 2) (xs.length - j * (2 ^ k * 2))
    omega

theorem chunk_zero : chunk 0 j xs = (xs.drop j).take 1 := by
  simp [chunk]

theorem chunk_ne_nil_of_le {j' : Nat} (hj : j' ≤ j) (hne : chunk k j xs ≠ []) : chunk k j' xs ≠ [] := by
  rw [Ne, chunk_eq_nil_iff] at hne ⊢
  have hmul : j' * 2 ^ k ≤ j * 2 ^ k := Nat.mul_le_mul_right _ hj
  omega

theorem chunk_ne_nil_of_succ (hne : chunk (k + 1) j xs ≠ []) : chunk k (2 * j) xs ≠ [] := by
  rw [Ne, chunk_eq_nil_iff] at hne ⊢
  have hpow : j * 2 ^ (k + 1) = 2 * j * 2 ^ k := by ring
  omega

end chunk

variable [Inhabited α] (hash : α → α → α)

/-- The root of the width-`2^k` tree over `xs`: when the right half holds no
leaf, the left subtree is hashed with itself. -/
def treeHash : Nat → List α → α
  | 0, xs => xs.headD default
  | k + 1, xs =>
    if xs.length ≤ 2 ^ k then hash (treeHash k xs) (treeHash k xs)
    else hash (treeHash k (xs.take (2 ^ k))) (treeHash k (xs.drop (2 ^ k)))

/-- The node of level `k` over block `j`. -/
def node (k j : Nat) (xs : List α) : α := treeHash hash k (chunk k j xs)

/-- The sibling at level `k` of the node above leaf `pos`: the node's
neighbour in its pair, or the node itself when it is the last of its level
and has no right neighbour. -/
def sibling (k pos : Nat) (xs : List α) : α :=
  if pos / 2 ^ k % 2 = 1 then node hash k (pos / 2 ^ k - 1) xs
  else if chunk k (pos / 2 ^ k + 1) xs = [] then node hash k (pos / 2 ^ k) xs
  else node hash k (pos / 2 ^ k + 1) xs

/-- The path of leaf `pos` below level `k`: its siblings at levels `0` to `k - 1`. -/
def branch (k pos : Nat) (xs : List α) : List α :=
  (List.range k).map (fun l => sibling hash l pos xs)

variable {hash}

@[simp] theorem branch_zero (pos : Nat) (xs : List α) : branch hash 0 pos xs = [] := rfl

theorem branch_succ (k pos : Nat) (xs : List α) :
    branch hash (k + 1) pos xs = branch hash k pos xs ++ [sibling hash k pos xs] := by
  rw [branch, branch, List.range_succ, List.map_append, List.map_singleton]

section sibling

variable {k pos : Nat} {xs : List α}

theorem sibling_of_odd (h : pos / 2 ^ k % 2 = 1) :
    sibling hash k pos xs = node hash k (pos / 2 ^ k - 1) xs := by
  rw [sibling, if_pos h]

/-- A left node whose right neighbour covers no leaf is its own sibling. -/
theorem sibling_of_even_of_nil (h : pos / 2 ^ k % 2 = 0) (hnil : chunk k (pos / 2 ^ k + 1) xs = []) :
    sibling hash k pos xs = node hash k (pos / 2 ^ k) xs := by
  rw [sibling, if_neg (by omega), if_pos hnil]

theorem sibling_of_even (h : pos / 2 ^ k % 2 = 0) (hne : chunk k (pos / 2 ^ k + 1) xs ≠ []) :
    sibling hash k pos xs = node hash k (pos / 2 ^ k + 1) xs := by
  rw [sibling, if_neg (by omega), if_neg hne]

end sibling

theorem node_zero (j : Nat) (xs : List α) : node hash 0 j xs = xs.getD j default := by
  rw [node, treeHash, chunk_zero, List.headD_eq_head?_getD, List.head?_take, List.head?_drop,
    List.getD_eq_getElem?_getD]
  simp

/-- A node hashes its two children; a right child over no leaves is replaced
by the left one. -/
theorem node_succ (k j : Nat) (xs : List α) :
    node hash (k + 1) j xs =
      hash (node hash k (2 * j) xs)
        (if chunk k (2 * j + 1) xs = [] then node hash k (2 * j) xs
        else node hash k (2 * j + 1) xs) := by
  rw [node, treeHash]
  by_cases hshort : (chunk (k + 1) j xs).length ≤ 2 ^ k
  · have hnil := chunk_succ_length_le_iff.1 hshort
    have hfirst : chunk (k + 1) j xs = chunk k (2 * j) xs := by
      rw [← take_chunk_succ, List.take_of_length_le hshort]
    rw [if_pos hshort, if_pos hnil, hfirst, node]
  · have hne : chunk k (2 * j + 1) xs ≠ [] := fun h => hshort (chunk_succ_length_le_iff.2 h)
    rw [if_neg hshort, if_neg hne, take_chunk_succ, drop_chunk_succ, node, node]

theorem node_succ_of_ne_nil {k j : Nat} {xs : List α} (hne : chunk k (2 * j + 1) xs ≠ []) :
    node hash (k + 1) j xs = hash (node hash k (2 * j) xs) (node hash k (2 * j + 1) xs) := by
  rw [node_succ, if_neg hne]

theorem node_succ_of_nil {k j : Nat} {xs : List α} (hnil : chunk k (2 * j + 1) xs = []) :
    node hash (k + 1) j xs = hash (node hash k (2 * j) xs) (node hash k (2 * j) xs) := by
  rw [node_succ, if_pos hnil]

section injective

variable {xs : List α}

/-- With an injective hash and distinct leaves, the non-empty blocks of one
level have distinct nodes. Only the left children need comparing, so the
induction on the level follows them down to the leaves. -/
theorem node_injective (hinj : ∀ a b c d, hash a b = hash c d → a = c ∧ b = d) (hnodup : xs.Nodup)
    (k : Nat) {j j' : Nat} (hj : chunk k j xs ≠ []) (hj' : chunk k j' xs ≠ [])
    (heq : node hash k j xs = node hash k j' xs) : j = j' := by
  induction k generalizing j j' with
  | zero =>
    have hlt : j < xs.length := by
      rw [Ne, chunk_eq_nil_iff] at hj
      omega
    have hlt' : j' < xs.length := by
      rw [Ne, chunk_eq_nil_iff] at hj'
      omega
    rw [node_zero, node_zero, List.getD_eq_getElem _ _ hlt, List.getD_eq_getElem _ _ hlt'] at heq
    exact (hnodup.getElem_inj_iff).mp heq
  | succ k ih =>
    rw [node_succ, node_succ] at heq
    have hleft := ih (chunk_ne_nil_of_succ hj) (chunk_ne_nil_of_succ hj') (hinj _ _ _ _ heq).1
    omega

/-- Under the same conditions no node hashes like its right sibling. -/
theorem node_ne_sibling (hinj : ∀ a b c d, hash a b = hash c d → a = c ∧ b = d) (hnodup : xs.Nodup)
    {k j : Nat} (hne : chunk k (2 * j + 1) xs ≠ []) : node hash k (2 * j) xs ≠ node hash k (2 * j + 1) xs := by
  intro heq
  have hsame := node_injective hinj hnodup k (chunk_ne_nil_of_le (Nat.le_succ _) hne) hne heq
  omega

end injective

end MerkleTree
