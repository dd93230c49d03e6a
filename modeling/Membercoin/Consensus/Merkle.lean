import Mathlib

/-!
# Merkle roots

`ComputeMerkleRoot` of `consensus/merkle.cpp` reduces a list of hashes level
by level: an odd level repeats its last hash, and `SHA256D64` hashes each
pair. The 64-byte double-SHA256 is a parameter `hash64` here, and `uint256()`
is `default`. The loop also reports a mutation when a level holds two equal
hashes at positions `2i` and `2i + 1`: that is how CVE-2012-2459 is caught,
since a list ending in a repeated pair has the root of the list without it.
The first result is that the check is complete for trees of one height: with
an injective `hash64`, two lists of the same height with the same root and
no mutation are equal (`merkle_mutation_complete`).

`ComputeMerkleRootFromBranch` climbs from a leaf to the root along a branch;
`levelBranch` reads the branch of a position off the levels of the loop, and
climbing along it gives the root (`computeMerkleRootFromBranch_levelBranch`).
-/

namespace Membercoin

variable {α : Type} (hash64 : α → α → α)

/-- `SHA256D64` over a level of even length: the hash of each pair. -/
def sha256D64 : List α → List α
  | a :: b :: rest => hash64 a b :: sha256D64 rest
  | _ => []

/-- The mutation test of `ComputeMerkleRoot`: equal hashes at positions `pos`
and `pos + 1` for some even `pos`. -/
def hasEqualPair [DecidableEq α] : List α → Bool
  | a :: b :: rest => a == b || hasEqualPair rest
  | _ => false

theorem sha256D64_length (hashes : List α) :
    (sha256D64 hash64 hashes).length = hashes.length / 2 := by
  fun_induction sha256D64 hash64 hashes with
  | case1 a b rest ih =>
    simp only [List.length_cons, ih]
    omega
  | case2 l hl =>
    rcases l with _ | ⟨a, _ | ⟨b, rest⟩⟩
    · simp
    · simp
    · exact absurd rfl (hl a b rest)

/-- A list ending in a repeated pair at an even position is a mutation. -/
theorem hasEqualPair_append_pair [DecidableEq α] {l : List α} (hl : l.length % 2 = 0) (x : α) :
    hasEqualPair (l ++ [x, x]) = true := by
  induction l using hasEqualPair.induct with
  | case1 a b rest ih =>
    simp only [List.length_cons] at hl
    simp [hasEqualPair, ih (by omega)]
  | case2 l hnot =>
    rcases l with _ | ⟨a, _ | ⟨b, rest⟩⟩
    · simp [hasEqualPair]
    · simp at hl
    · exact absurd rfl (hnot a b rest)

section injective

variable {hash64}
variable (hinj : ∀ a b c d, hash64 a b = hash64 c d → a = c ∧ b = d)
include hinj

/-- With an injective `hash64`, `SHA256D64` forgets nothing of a level of even
length. -/
theorem sha256D64_injective {l l' : List α} (hl : l.length % 2 = 0) (hl' : l'.length % 2 = 0)
    (h : sha256D64 hash64 l = sha256D64 hash64 l') : l = l' := by
  induction l using sha256D64.induct generalizing l' with
  | case1 a b rest ih =>
    rcases l' with _ | ⟨c, _ | ⟨d, rest'⟩⟩
    · simp [sha256D64] at h
    · simp at hl'
    · simp only [sha256D64, List.cons.injEq] at h
      obtain ⟨⟨rfl, rfl⟩, hrest⟩ := And.imp_left (hinj a b c d) h
      simp only [List.length_cons] at hl hl'
      rw [ih (by omega) (by omega) hrest]
  | case2 l hnot =>
    rcases l with _ | ⟨a, _ | ⟨b, rest⟩⟩
    · rcases l' with _ | ⟨c, _ | ⟨d, rest'⟩⟩
      · rfl
      · simp at hl'
      · simp [sha256D64] at h
    · simp at hl
    · exact absurd rfl (hnot a b rest)

end injective

variable [Inhabited α]

/-- One pass of the `ComputeMerkleRoot` loop after its mutation test: repeat
the last hash of an odd level, then hash the pairs. -/
def merkleLevel (hashes : List α) : List α :=
  sha256D64 hash64 (if hashes.length % 2 = 1 then hashes ++ [hashes.getLast!] else hashes)

theorem merkleLevel_length (hashes : List α) :
    (merkleLevel hash64 hashes).length = (hashes.length + 1) / 2 := by
  unfold merkleLevel
  split_ifs with hodd
  · rw [sha256D64_length, List.length_append, List.length_singleton]
  · rw [sha256D64_length]
    omega

section root

variable [DecidableEq α]

/-- The `while (hashes.size() > 1)` loop of `ComputeMerkleRoot`, with the
mutation flag it accumulates. -/
def computeMerkleRootLoop (hashes : List α) (mutation : Bool) : List α × Bool :=
  if hashes.length > 1 then
    computeMerkleRootLoop (merkleLevel hash64 hashes) (mutation || hasEqualPair hashes)
  else (hashes, mutation)
termination_by hashes.length
decreasing_by
  rw [merkleLevel_length]
  omega

/-- `ComputeMerkleRoot(hashes, &mutated)`: the root, `uint256()` for no
hashes, and the mutation flag. -/
def computeMerkleRoot (hashes : List α) : α × Bool :=
  let r := computeMerkleRootLoop hash64 hashes false
  (r.1.headD default, r.2)

end root

/-- `ComputeMerkleRootFromBranch`: hash the running value with each branch
entry, on the side the bits of the position give. -/
def computeMerkleRootFromBranch (hash : α) : List α → Nat → α
  | [], _ => hash
  | b :: branch, nIndex =>
    computeMerkleRootFromBranch (if nIndex % 2 = 1 then hash64 b hash else hash64 hash b) branch
      (nIndex / 2)

/-- The branch of position `pos` read off the levels of `ComputeMerkleRoot`:
at each level the sibling of the node on the path, or the node itself when
it is the last of an odd level. -/
def levelBranch (hashes : List α) (pos : Nat) : List α :=
  if hashes.length > 1 then
    hashes.getD (if pos % 2 = 1 then pos - 1 else pos + 1) (hashes.getD pos default) ::
      levelBranch (merkleLevel hash64 hashes) (pos / 2)
  else []
termination_by hashes.length
decreasing_by
  rw [merkleLevel_length]
  omega

/-! ## The loop -/

section loop

variable [DecidableEq α] {hash64}

theorem computeMerkleRootLoop_of_le_one {hashes : List α} (h : hashes.length ≤ 1)
    (mutation : Bool) : computeMerkleRootLoop hash64 hashes mutation = (hashes, mutation) := by
  rw [computeMerkleRootLoop, if_neg (by omega)]

theorem computeMerkleRootLoop_of_one_lt {hashes : List α} (h : 1 < hashes.length)
    (mutation : Bool) :
    computeMerkleRootLoop hash64 hashes mutation =
      computeMerkleRootLoop hash64 (merkleLevel hash64 hashes) (mutation || hasEqualPair hashes) := by
  rw [computeMerkleRootLoop, if_pos h]

/-- A mutation once found stays reported. -/
theorem computeMerkleRootLoop_mutation_true (hashes : List α) {mutation : Bool}
    (h : mutation = true) : (computeMerkleRootLoop hash64 hashes mutation).2 = true := by
  fun_induction computeMerkleRootLoop hash64 hashes mutation with
  | case1 hashes mutation hlen ih => exact ih (by simp [h])
  | case2 hashes mutation hlen => exact h

/-- The loop ends with a single hash when it starts with at least one. -/
theorem computeMerkleRootLoop_length {hashes : List α} (h : 0 < hashes.length)
    (mutation : Bool) : (computeMerkleRootLoop hash64 hashes mutation).1.length = 1 := by
  fun_induction computeMerkleRootLoop hash64 hashes mutation with
  | case1 hashes mutation hlen ih =>
    apply ih
    rw [merkleLevel_length]
    omega
  | case2 hashes mutation hlen =>
    simp only
    omega

/-- An odd level repeats its last hash; a level one longer that holds the
repeated hash itself is a mutation. -/
theorem hasEqualPair_of_eq_append_getLast {l l' : List α} (hodd : l.length % 2 = 1)
    (h : l' = l ++ [l.getLast!]) : hasEqualPair l' = true := by
  obtain ⟨init, last, rfl⟩ : ∃ init last, l = init ++ [last] := by
    rcases List.eq_nil_or_concat l with rfl | ⟨init, last, rfl⟩
    · simp at hodd
    · exact ⟨init, last, List.concat_eq_append⟩
  simp only [List.length_append, List.length_singleton] at hodd
  have hlast : (init ++ [last]).getLast! = last := by simp
  rw [h, hlast, List.append_assoc]
  exact hasEqualPair_append_pair (by omega) last

/-- Without mutations, one level of the loop determines the level it was
computed from. -/
theorem merkleLevel_injective (hinj : ∀ a b c d, hash64 a b = hash64 c d → a = c ∧ b = d)
    {l l' : List α} (hmut : hasEqualPair l = false) (hmut' : hasEqualPair l' = false)
    (h : merkleLevel hash64 l = merkleLevel hash64 l') : l = l' := by
  have hpad : ∀ m : List α, (if m.length % 2 = 1 then m ++ [m.getLast!] else m).length % 2 = 0 := by
    intro m
    split_ifs with hm
    · simp only [List.length_append, List.length_singleton]
      omega
    · omega
  have heq := sha256D64_injective hinj (hpad l) (hpad l') h
  by_cases hl : l.length % 2 = 1 <;> by_cases hl' : l'.length % 2 = 1
  · rw [if_pos hl, if_pos hl'] at heq
    exact (List.append_inj' heq rfl).1
  · rw [if_pos hl, if_neg hl'] at heq
    have := hasEqualPair_of_eq_append_getLast hl heq.symm
    rw [hmut'] at this
    cases this
  · rw [if_neg hl, if_pos hl'] at heq
    have := hasEqualPair_of_eq_append_getLast hl' heq
    rw [hmut] at this
    cases this
  · rw [if_neg hl, if_neg hl'] at heq
    exact heq

/-- Lists of one height that the loop reduces to the same hash without a
mutation are equal: by induction on the height, each level determines the
one below it (`merkleLevel_injective`). -/
theorem computeMerkleRootLoop_injective
    (hinj : ∀ a b c d, hash64 a b = hash64 c d → a = c ∧ b = d) (k : Nat) :
    ∀ {l l' : List α} {m m' : Bool}, 0 < l.length → 0 < l'.length →
      Nat.clog 2 l.length = k → Nat.clog 2 l'.length = k →
      (computeMerkleRootLoop hash64 l m).1 = (computeMerkleRootLoop hash64 l' m').1 →
      (computeMerkleRootLoop hash64 l m).2 = false →
      (computeMerkleRootLoop hash64 l' m').2 = false → l = l' := by
  induction k with
  | zero =>
    intro l l' m m' hl hl' hk hk' hroot _ _
    have h1 : l.length ≤ 1 := by
      by_contra hgt
      exact absurd hk (Nat.pos_iff_ne_zero.mp (Nat.clog_pos (by decide) (by omega)))
    have h1' : l'.length ≤ 1 := by
      by_contra hgt
      exact absurd hk' (Nat.pos_iff_ne_zero.mp (Nat.clog_pos (by decide) (by omega)))
    rwa [computeMerkleRootLoop_of_le_one h1, computeMerkleRootLoop_of_le_one h1'] at hroot
  | succ k ih =>
    intro l l' m m' hl hl' hk hk' hroot hmut hmut'
    have h2 : 1 < l.length := by
      by_contra hle
      rw [Nat.clog_of_right_le_one (by omega)] at hk
      cases hk
    have h2' : 1 < l'.length := by
      by_contra hle
      rw [Nat.clog_of_right_le_one (by omega)] at hk'
      cases hk'
    have hheight : ∀ {n : Nat}, 1 < n → Nat.clog 2 n = k + 1 → Nat.clog 2 ((n + 1) / 2) = k := by
      intro n hn hkn
      rw [Nat.clog_of_two_le (by decide) (by omega)] at hkn
      simpa using hkn
    rw [computeMerkleRootLoop_of_one_lt h2] at hroot hmut
    rw [computeMerkleRootLoop_of_one_lt h2'] at hroot hmut'
    have hlevel : merkleLevel hash64 l = merkleLevel hash64 l' := by
      refine ih ?_ ?_ ?_ ?_ hroot hmut hmut' <;> rw [merkleLevel_length]
      · omega
      · omega
      · exact hheight h2 hk
      · exact hheight h2' hk'
    have hno : ∀ {l : List α} {m : Bool},
        (computeMerkleRootLoop hash64 (merkleLevel hash64 l) (m || hasEqualPair l)).2 = false →
        hasEqualPair l = false := by
      intro l m h
      by_contra htrue
      rw [Bool.not_eq_false] at htrue
      rw [computeMerkleRootLoop_mutation_true _ (by simp [htrue])] at h
      cases h
    exact merkleLevel_injective hinj (hno hmut) (hno hmut') hlevel

/-- Completeness of the mutation check of `ComputeMerkleRoot` for trees of one
height (CVE-2012-2459): when the 64-byte hash is injective, two non-empty
lists whose lengths have the same `⌈log₂⌉` and that have the same root with
no mutation reported are the same list. -/
theorem merkle_mutation_complete (hinj : ∀ a b c d, hash64 a b = hash64 c d → a = c ∧ b = d)
    {L L' : List α} (hL : 0 < L.length) (hL' : 0 < L'.length)
    (hheight : Nat.clog 2 L.length = Nat.clog 2 L'.length)
    (hroot : (computeMerkleRoot hash64 L).1 = (computeMerkleRoot hash64 L').1)
    (hm : (computeMerkleRoot hash64 L).2 = false) (hm' : (computeMerkleRoot hash64 L').2 = false) :
    L = L' := by
  have hone : (computeMerkleRootLoop hash64 L false).1.length = 1 :=
    computeMerkleRootLoop_length hL false
  have hone' : (computeMerkleRootLoop hash64 L' false).1.length = 1 :=
    computeMerkleRootLoop_length hL' false
  have hfinal : (computeMerkleRootLoop hash64 L false).1 = (computeMerkleRootLoop hash64 L' false).1 := by
    match hr : (computeMerkleRootLoop hash64 L false).1, hr' : (computeMerkleRootLoop hash64 L' false).1,
      hone, hone', hroot with
    | [a], [b], _, _, hroot =>
      simp only [computeMerkleRoot, hr, hr', List.headD_cons] at hroot
      rw [hroot]
  exact computeMerkleRootLoop_injective hinj _ hL hL' rfl hheight.symm hfinal hm hm'

theorem merkle_mutation_complete_pair :
    (computeMerkleRoot Nat.pair [1, 2]).2 = false ∧ [1, 2] = [1, 2] := by
  have hloop : computeMerkleRootLoop Nat.pair [1, 2] false = ([Nat.pair 1 2], false) := by
    rw [computeMerkleRootLoop_of_one_lt (by decide), computeMerkleRootLoop_of_le_one (by decide)]
    rfl
  have hm : (computeMerkleRoot Nat.pair [1, 2]).2 = false := by
    simp [computeMerkleRoot, hloop]
  exact ⟨hm, merkle_mutation_complete (fun a b c d h => Nat.pair_eq_pair.mp h) (by decide)
    (by decide) rfl rfl hm hm⟩

end loop

section branch

variable {hash64}

/-! ## Climbing along a branch -/

theorem sha256D64_getD {l : List α} {i : Nat} (h : 2 * i + 1 < l.length) :
    (sha256D64 hash64 l).getD i default =
      hash64 (l.getD (2 * i) default) (l.getD (2 * i + 1) default) := by
  induction l using sha256D64.induct generalizing i with
  | case1 a b rest ih =>
    cases i with
    | zero => simp [sha256D64]
    | succ j =>
      simp only [List.length_cons] at h
      have e1 : (a :: b :: rest).getD (2 * (j + 1)) default = rest.getD (2 * j) default := by
        rw [show 2 * (j + 1) = 2 * j + 1 + 1 by omega]
        rfl
      have e2 : (a :: b :: rest).getD (2 * (j + 1) + 1) default =
          rest.getD (2 * j + 1) default := by
        rw [show 2 * (j + 1) + 1 = 2 * j + 1 + 1 + 1 by omega]
        rfl
      rw [e1, e2, ← ih (by omega)]
      rfl
  | case2 l hnot =>
    rcases l with _ | ⟨a, _ | ⟨b, rest⟩⟩
    · simp at h
    · simp at h
    · exact absurd rfl (hnot a b rest)

omit [Inhabited α] in
/-- Below the length of a list the fallback of `getD` is never read. -/
theorem getD_of_lt {l : List α} {n : Nat} (h : n < l.length) (d d' : α) :
    l.getD n d = l.getD n d' := by
  simp [List.getD_eq_getElem?_getD, List.getElem?_eq_getElem h]

/-- Reading the level padded with its last hash below its length reads the
level itself; one past it, an odd level reads its last hash. -/
theorem padded_getD {l : List α} {j : Nat} (hj : j < l.length) :
    (if l.length % 2 = 1 then l ++ [l.getLast!] else l).getD j default = l.getD j default := by
  split_ifs
  · simp [List.getD_eq_getElem?_getD, List.getElem?_append_left hj]
  · rfl

theorem padded_getD_length {l : List α} (hodd : l.length % 2 = 1) :
    (if l.length % 2 = 1 then l ++ [l.getLast!] else l).getD l.length default =
      l.getD (l.length - 1) default := by
  rw [if_pos hodd]
  obtain ⟨init, last, rfl⟩ : ∃ init last, l = init ++ [last] := by
    rcases List.eq_nil_or_concat l with rfl | ⟨init, last, rfl⟩
    · simp at hodd
    · exact ⟨init, last, List.concat_eq_append⟩
  simp [List.getD_eq_getElem?_getD]

/-- The node above position `pos` hashes the node at `pos` with its sibling,
on the side the parity of `pos` gives; the last node of an odd level is its
own sibling. -/
theorem merkleLevel_getD {hashes : List α} {pos : Nat} (hpos : pos < hashes.length) :
    (merkleLevel hash64 hashes).getD (pos / 2) default =
      if pos % 2 = 1 then
        hash64 (hashes.getD (pos - 1) (hashes.getD pos default)) (hashes.getD pos default)
      else hash64 (hashes.getD pos default) (hashes.getD (pos + 1) (hashes.getD pos default)) := by
  set padded := if hashes.length % 2 = 1 then hashes ++ [hashes.getLast!] else hashes with hpadded
  have hlen : padded.length = hashes.length + hashes.length % 2 := by
    rw [hpadded]
    split_ifs with hodd
    · simp only [List.length_append, List.length_singleton]
      omega
    · omega
  unfold merkleLevel
  rw [← hpadded]
  split_ifs with hodd
  · rw [sha256D64_getD (by omega), show 2 * (pos / 2) + 1 = pos by omega,
      show 2 * (pos / 2) = pos - 1 by omega, padded_getD (by omega), padded_getD hpos,
      getD_of_lt (show pos - 1 < hashes.length by omega) default]
  · rw [sha256D64_getD (by omega), show 2 * (pos / 2) = pos by omega, padded_getD hpos]
    by_cases hnext : pos + 1 < hashes.length
    · rw [padded_getD hnext, getD_of_lt hnext default]
    · have hlast : pos + 1 = hashes.length := by omega
      rw [hlast, padded_getD_length (by omega), show hashes.length - 1 = pos by omega,
        List.getD_eq_default _ _ (le_refl _)]

/-- Climbing from a leaf along its branch read off the levels gives the root
that `ComputeMerkleRoot` computes. -/
theorem computeMerkleRootFromBranch_levelBranch [DecidableEq α] {hashes : List α} {pos : Nat}
    (hpos : pos < hashes.length) (mutation : Bool) :
    computeMerkleRootFromBranch hash64 (hashes.getD pos default) (levelBranch hash64 hashes pos) pos =
      (computeMerkleRootLoop hash64 hashes mutation).1.headD default := by
  induction hashes, pos using levelBranch.induct hash64 generalizing mutation with
  | case1 hashes pos hlen ih =>
    rw [levelBranch, if_pos hlen, computeMerkleRootLoop_of_one_lt hlen]
    simp only [computeMerkleRootFromBranch]
    have hnode : (merkleLevel hash64 hashes).getD (pos / 2) default = _ := merkleLevel_getD hpos
    have hup : pos / 2 < (merkleLevel hash64 hashes).length := by
      rw [merkleLevel_length]
      omega
    rw [← ih hup (mutation || hasEqualPair hashes), hnode]
    split_ifs <;> rfl
  | case2 hashes pos hlen =>
    rw [levelBranch, if_neg hlen, computeMerkleRootLoop_of_le_one (by omega)]
    obtain rfl : pos = 0 := by omega
    rcases hashes with _ | ⟨a, _ | ⟨b, rest⟩⟩
    · simp at hpos
    · rfl
    · simp at hlen

end branch

end Membercoin
