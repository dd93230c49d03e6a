import Membercoin.Lib.BinaryCounter
import Membercoin.Consensus.MerkleLevels

/-!
# The constant-space merkle computation

`MerkleComputation` in consensus/merkle.cpp streams the leaves through a
binary counter `count`: `inner[level]` keeps the root of the last complete
block of `2^level` leaves while bit `level` of `count` is one, and a new leaf
is hashed with the stored roots while the carry runs. A final sweep pads the
right edge, pairing a node with itself, until `count` is a power of two. The
branch of leaf `branchpos` is recorded on the way: `matchh` says that the
running hash covers the leaf, `matchlevel` that `inner[matchlevel]` does.

The model keeps `count` a natural number below `2^32`, advancing it modulo
`2^32` where the source adds to it in the sweep, and returns `none` where the
source shifts a 32-bit one by 32 or more.
-/

namespace Membercoin

open MerkleTree BinaryCounter

/-- The locals of `MerkleComputation` that live across its loops. -/
structure MerkleState (α : Type) where
  count : Nat
  inner : Nat → α
  matchlevel : Int
  mutated : Bool
  branch : List α

variable {α : Type} (hash64 : α → α → α)

/-- Record the other half of the pair combined at `level` when the pair holds
the matching leaf: `inner[level]` when the running hash covers it, the running
hash when `inner[level]` does. -/
def MerkleState.recordPair (st : MerkleState α) (h : α) (matchh : Bool) (level : Nat) :
    MerkleState α :=
  if matchh then { st with branch := st.branch ++ [st.inner level] }
  else if st.matchlevel = level then { st with branch := st.branch ++ [h] }
  else st

namespace MerkleState

variable {st : MerkleState α} {h : α} {matchh : Bool} {level : Nat}

@[simp] theorem recordPair_count : (st.recordPair h matchh level).count = st.count := by
  unfold recordPair
  split_ifs <;> rfl

@[simp] theorem recordPair_inner : (st.recordPair h matchh level).inner = st.inner := by
  unfold recordPair
  split_ifs <;> rfl

@[simp] theorem recordPair_matchlevel : (st.recordPair h matchh level).matchlevel = st.matchlevel := by
  unfold recordPair
  split_ifs <;> rfl

theorem recordPair_of_unmatched (hm : matchh = false) (hl : st.matchlevel ≠ level) :
    st.recordPair h matchh level = st := by
  rw [recordPair, if_neg (by simp [hm]), if_neg hl]

end MerkleState

variable [DecidableEq α]

/-- The inner loops of `MerkleComputation`: while bit `level` of `count` is
zero, hash `inner[level]` with the running hash `h` and go up a level. The
first loop also compares the two halves (`checkMutation`); the sweep does not. -/
def combineLevels (checkMutation : Bool) (st : MerkleState α) (h : α) (matchh : Bool)
    (level : Nat) : Option (MerkleState α × α × Bool × Nat) :=
  if level < 32 then
    if st.count &&& 1 <<< level = 0 then
      combineLevels checkMutation
        { st.recordPair h matchh level with
          mutated := st.mutated || checkMutation && st.inner level == h }
        (hash64 (st.inner level) h) (matchh || decide (st.matchlevel = level)) (level + 1)
    else some (st, h, matchh, level)
  else none
termination_by 32 - level

/-- One round of the first loop: count the leaf, climb with it, and store the
result at the level where the climb stops. -/
def processLeaf (branchpos : Nat) (st : MerkleState α) (leaf : α) : Option (MerkleState α) := do
  let (st, h, matchh, level) ←
    combineLevels hash64 true { st with count := st.count + 1 } leaf (decide (st.count = branchpos)) 0
  pure { st with
    inner := Function.update st.inner level h
    matchlevel := if matchh then level else st.matchlevel }

/-- The first loop of the sweep: skip the levels whose bit of `count` is zero. -/
def lowestSetLevel (count level : Nat) : Option Nat :=
  if level < 32 then
    if count &&& 1 <<< level = 0 then lowestSetLevel count (level + 1) else some level
  else none
termination_by 32 - level


theorem combineLevels_level {checkMutation : Bool} {st : MerkleState α} {h : α} {matchh : Bool}
    {level : Nat} {r : MerkleState α × α × Bool × Nat}
    (hrun : combineLevels hash64 checkMutation st h matchh level = some r) :
    level ≤ r.2.2.2 ∧ r.2.2.2 < 32 := by
  induction st, h, matchh, level using combineLevels.induct hash64 checkMutation with
  | case1 st h matchh level hlt hzero ih =>
    rw [combineLevels, if_pos hlt, if_pos hzero] at hrun
    have := ih hrun
    omega
  | case2 st h matchh level hlt hset =>
    rw [combineLevels, if_pos hlt, if_neg hset, Option.some.injEq] at hrun
    subst hrun
    exact ⟨le_refl _, hlt⟩
  | case3 st h matchh level hge =>
    rw [combineLevels, if_neg hge] at hrun
    cases hrun

/-- The sweep: while `count` is not a power of two, pair the running hash
with itself, count the missing half, and climb. -/
def sweep (st : MerkleState α) (h : α) (matchh : Bool) (level : Nat) : Option (MerkleState α × α) :=
  if level < 32 then
    if st.count = 1 <<< level then some (st, h)
    else
      let st' := if matchh then { st with branch := st.branch ++ [h] } else st
      match hrun : combineLevels hash64 false { st' with count := (st.count + 1 <<< level) % 2 ^ 32 }
          (hash64 h h) matchh (level + 1) with
      | some (st'', h', matchh', level') => sweep st'' h' matchh' level'
      | none => none
  else none
termination_by 32 - level
decreasing_by
  have := combineLevels_level hash64 hrun
  simp only at this
  omega

/-! ## The climb -/

section climb

variable {hash64} {checkMutation : Bool}

/-- The climb changes only the branch and the mutation flag, and it stops at
the first set bit of `count` from where it starts. -/
theorem combineLevels_frame {st st' : MerkleState α} {h h' : α} {matchh matchh' : Bool}
    {level t : Nat}
    (hrun : combineLevels hash64 checkMutation st h matchh level = some (st', h', matchh', t)) :
    st'.count = st.count ∧ st'.inner = st.inner ∧ st'.matchlevel = st.matchlevel ∧
      level ≤ t ∧ st.count / 2 ^ t % 2 = 1 ∧
      ∀ l, level ≤ l → l < t → st.count / 2 ^ l % 2 = 0 := by
  induction st, h, matchh, level using combineLevels.induct hash64 checkMutation with
  | case1 st h matchh level hlt hzero ih =>
    rw [combineLevels, if_pos hlt, if_pos hzero] at hrun
    obtain ⟨hcount, hinner, hmatch, hle, hbit, hbelow⟩ := ih hrun
    simp only [MerkleState.recordPair_count, MerkleState.recordPair_inner,
      MerkleState.recordPair_matchlevel] at hcount hinner hmatch hbit hbelow
    refine ⟨hcount, hinner, hmatch, by omega, hbit, ?_⟩
    intro l hl hlt'
    rcases Nat.eq_or_lt_of_le hl with rfl | hl'
    · exact (and_one_shiftLeft_eq_zero_iff _ _).mp hzero
    · exact hbelow l hl' hlt'
  | case2 st h matchh level hlt hset =>
    rw [combineLevels, if_pos hlt, if_neg hset] at hrun
    simp only [Option.some.injEq, Prod.mk.injEq] at hrun
    obtain ⟨rfl, rfl, rfl, rfl⟩ := hrun
    have hbit : ¬ st.count / 2 ^ level % 2 = 0 := fun h0 => hset ((and_one_shiftLeft_eq_zero_iff _ _).mpr h0)
    exact ⟨rfl, rfl, rfl, le_refl _, by omega, fun l hl hlt' => absurd hlt' (by omega)⟩
  | case3 st h matchh level hge =>
    rw [combineLevels, if_neg hge] at hrun
    cases hrun

/-- A climb that ends off the path started off it, left the branch alone and
passed no level equal to `matchlevel`. -/
theorem combineLevels_unmatched {st st' : MerkleState α} {h h' : α} {matchh matchh' : Bool}
    {level t : Nat}
    (hrun : combineLevels hash64 checkMutation st h matchh level = some (st', h', matchh', t))
    (hm : matchh' = false) :
    matchh = false ∧ st'.branch = st.branch ∧ ∀ l : Nat, level ≤ l → l < t → st.matchlevel ≠ l := by
  induction st, h, matchh, level using combineLevels.induct hash64 checkMutation with
  | case1 st h matchh level hlt hzero ih =>
    rw [combineLevels, if_pos hlt, if_pos hzero] at hrun
    obtain ⟨hnext, hbranch, hbelow⟩ := ih hrun
    simp only [Bool.or_eq_false_iff, decide_eq_false_iff_not] at hnext
    obtain ⟨hmatch, hlevel⟩ := hnext
    have hsame := MerkleState.recordPair_of_unmatched (h := h) hmatch hlevel
    rw [hsame] at hbranch hbelow
    refine ⟨hmatch, hbranch, ?_⟩
    intro l hl hlt'
    rcases Nat.eq_or_lt_of_le hl with rfl | hl'
    · exact hlevel
    · exact hbelow l hl' hlt'
  | case2 st h matchh level hlt hset =>
    rw [combineLevels, if_pos hlt, if_neg hset] at hrun
    simp only [Option.some.injEq, Prod.mk.injEq] at hrun
    obtain ⟨rfl, rfl, rfl, rfl⟩ := hrun
    exact ⟨hm, rfl, fun l hl hlt' => absurd hlt' (by omega)⟩
  | case3 st h matchh level hge =>
    rw [combineLevels, if_neg hge] at hrun
    cases hrun

/-- From an aligned level, the climb over a non-zero 32-bit count returns. -/
theorem combineLevels_isSome {st : MerkleState α} {h : α} {matchh : Bool} {level : Nat}
    (hpos : 0 < st.count) (hlt : st.count < 2 ^ 32) (hal : st.count % 2 ^ level = 0) :
    ∃ r, combineLevels hash64 checkMutation st h matchh level = some r := by
  induction st, h, matchh, level using combineLevels.induct hash64 checkMutation with
  | case1 st h matchh level hlevel hzero ih =>
    rw [combineLevels, if_pos hlevel, if_pos hzero]
    apply ih (by simpa using hpos) (by simpa using hlt)
    simp only [MerkleState.recordPair_count]
    exact mod_two_pow_succ_eq_zero_iff.2 ⟨hal, (and_one_shiftLeft_eq_zero_iff _ _).mp hzero⟩
  | case2 st h matchh level hlevel hset =>
    rw [combineLevels, if_pos hlevel, if_neg hset]
    exact ⟨_, rfl⟩
  | case3 st h matchh level hge =>
    have hall : st.count % 2 ^ 32 = 0 := mod_two_pow_eq_zero_of_le hal (by omega)
    rw [Nat.mod_eq_of_lt hlt] at hall
    omega

/-- The climb over a zero count runs past bit 31. -/
theorem combineLevels_of_count_eq_zero {st : MerkleState α} {h : α} {matchh : Bool} {level : Nat}
    (hzero : st.count = 0) (hle : level ≤ 32) :
    combineLevels hash64 checkMutation st h matchh level = none := by
  induction st, h, matchh, level using combineLevels.induct hash64 checkMutation with
  | case1 st h matchh level hlevel hbit ih =>
    rw [combineLevels, if_pos hlevel, if_pos hbit]
    exact ih (by simpa using hzero) (by omega)
  | case2 st h matchh level hlevel hset =>
    rw [hzero, Nat.zero_and] at hset
    exact absurd rfl hset
  | case3 st h matchh level hge =>
    rw [combineLevels, if_neg hge]

/-- A round of the sweep that is not the last continues from where its
climb stops. -/
theorem sweep_of_combineLevels {st st' : MerkleState α} {h h' : α} {matchh matchh' : Bool}
    {level t : Nat} (hlt : level < 32) (hdone : ¬ st.count = 1 <<< level)
    (hrun : combineLevels hash64 false
      { (if matchh then { st with branch := st.branch ++ [h] } else st) with
        count := (st.count + 1 <<< level) % 2 ^ 32 }
      (hash64 h h) matchh (level + 1) = some (st', h', matchh', t)) :
    sweep hash64 st h matchh level = sweep hash64 st' h' matchh' t := by
  rw [sweep, if_pos hlt, if_neg hdone]
  simp only at hrun
  dsimp only
  rw [hrun]

theorem sweep_of_combineLevels_none {st : MerkleState α} {h : α} {matchh : Bool} {level : Nat}
    (hlt : level < 32) (hdone : ¬ st.count = 1 <<< level)
    (hrun : combineLevels hash64 false
      { (if matchh then { st with branch := st.branch ++ [h] } else st) with
        count := (st.count + 1 <<< level) % 2 ^ 32 }
      (hash64 h h) matchh (level + 1) = none) :
    sweep hash64 st h matchh level = none := by
  rw [sweep, if_pos hlt, if_neg hdone]
  simp only at hrun
  dsimp only
  rw [hrun]

end climb

variable [Inhabited α]

/-- `MerkleComputation`: the root, the mutation flag and the branch of leaf
`branchpos`. -/
def merkleComputation (leaves : List α) (branchpos : Nat) : Option (α × Bool × List α) :=
  if leaves = [] then some (default, false, [])
  else do
    let st ← leaves.foldlM (processLeaf hash64 branchpos) ⟨0, fun _ => default, -1, false, []⟩
    let level ← lowestSetLevel st.count 0
    let (st, h) ← sweep hash64 st (st.inner level) (decide (st.matchlevel = level)) level
    pure (h, st.mutated, st.branch)

/-- `ComputeMerkleBranch`. -/
def computeMerkleBranch (leaves : List α) (position : Nat) : Option (List α) :=
  (merkleComputation hash64 leaves position).map fun r => r.2.2

/-! ## What the climb keeps -/

/-- What holds at each level of a climb over `leaves`, with `branchpos` the
leaf whose branch is recorded: `h` is the node over the last block of
`2^level` leaves counted, `inner` holds its left neighbours along the carry,
and the branch is complete below `level` when `h` covers the leaf, or below
`matchlevel` when the left neighbour there does. -/
structure ClimbInv (leaves : List α) (branchpos : Nat) (st : MerkleState α) (h : α)
    (matchh : Bool) (level : Nat) : Prop where
  pos : 0 < st.count
  aligned : st.count % 2 ^ level = 0
  covers : st.count - 2 ^ level < leaves.length
  hash : h = node hash64 level (st.count / 2 ^ level - 1) leaves
  inner : ∀ l, level ≤ l → st.count % 2 ^ (l + 1) = 0 →
    st.inner l = node hash64 l (st.count / 2 ^ l - 2) leaves
  onPath : matchh = true → branchpos / 2 ^ level = st.count / 2 ^ level - 1 ∧
    st.branch = branch hash64 level branchpos leaves
  offPath : matchh = false → branchpos / 2 ^ level ≠ st.count / 2 ^ level - 1
  matchInner : matchh = false → ∀ l, level ≤ l → st.count % 2 ^ (l + 1) = 0 →
    (st.matchlevel = l ↔ branchpos / 2 ^ l = st.count / 2 ^ l - 2)
  matchBranch : matchh = false → ∀ l : Nat, st.matchlevel = l →
    st.branch = branch hash64 l branchpos leaves

section climbInv

variable {hash64} {leaves : List α} {branchpos : Nat} {checkMutation : Bool}

omit [DecidableEq α] in
/-- One level of the climb: the running hash and `inner[level]` are the two
children of the next node, and the pair's other half is the sibling the
branch needs at this level. -/
theorem ClimbInv.next {st st' : MerkleState α} {h : α} {matchh : Bool} {level : Nat}
    (hinv : ClimbInv hash64 leaves branchpos st h matchh level)
    (hzero : st.count / 2 ^ level % 2 = 0) (hcount : st'.count = st.count)
    (hinner' : st'.inner = st.inner) (hmatch : st'.matchlevel = st.matchlevel)
    (hbranch : st'.branch = (st.recordPair h matchh level).branch) :
    ClimbInv hash64 leaves branchpos st' (hash64 (st.inner level) h)
      (matchh || decide (st.matchlevel = level)) (level + 1) := by
  have hal : st.count % 2 ^ (level + 1) = 0 :=
    mod_two_pow_succ_eq_zero_iff.2 ⟨hinv.aligned, hzero⟩
  have hcu : st.count / 2 ^ level * 2 ^ level = st.count :=
    Nat.div_mul_cancel (Nat.dvd_of_mod_eq_zero hinv.aligned)
  have hpow : 2 ^ (level + 1) = 2 ^ level * 2 := pow_succ 2 level
  have hu2 : 2 ≤ st.count / 2 ^ level := by
    rw [Nat.le_div_iff_mul_le (Nat.two_pow_pos level), Nat.mul_comm, ← hpow]
    exact Nat.le_of_dvd hinv.pos (Nat.dvd_of_mod_eq_zero hal)
  have hup : ∀ x, x / 2 ^ (level + 1) = x / 2 ^ level / 2 := fun x => div_two_pow_succ x level
  have hcovers := hinv.covers
  have hleft : 2 * (st.count / 2 ^ (level + 1) - 1) = st.count / 2 ^ level - 2 := by
    rw [hup]
    omega
  have hright : 2 * (st.count / 2 ^ (level + 1) - 1) + 1 = st.count / 2 ^ level - 1 := by
    rw [hup]
    omega
  have hne : chunk level (st.count / 2 ^ level - 1) leaves ≠ [] := by
    rw [Ne, chunk_eq_nil_iff, Nat.sub_one_mul, hcu]
    omega
  have hinner := hinv.inner level (le_refl _) hal
  constructor
  · rw [hcount]
    exact hinv.pos
  · rw [hcount]
    exact hal
  · have : 2 ^ level ≤ 2 ^ (level + 1) := Nat.pow_le_pow_right (by decide) (by omega)
    rw [hcount]
    omega
  · rw [hcount, node_succ_of_ne_nil (by rw [hright]; exact hne), hright, hleft, ← hinner, hinv.hash]
  · intro l hl hal'
    rw [hinner', hcount]
    rw [hcount] at hal'
    exact hinv.inner l (by omega) hal'
  · intro hnew
    rw [hcount, hbranch, hup, branch_succ]
    cases matchh with
    | true =>
      obtain ⟨hpath, hbr⟩ := hinv.onPath rfl
      have hodd : branchpos / 2 ^ level % 2 = 1 := by omega
      refine ⟨by rw [hup, hpath]; omega, ?_⟩
      rw [MerkleState.recordPair, if_pos rfl, hbr, sibling_of_odd hodd, hpath, hinner, Nat.sub_sub]
    | false =>
      have hlevel : st.matchlevel = level := by simpa using hnew
      have hpath := (hinv.matchInner rfl level (le_refl _) hal).mp hlevel
      have heven : branchpos / 2 ^ level % 2 = 0 := by omega
      refine ⟨by rw [hup, hpath]; omega, ?_⟩
      rw [MerkleState.recordPair, if_neg (by simp), if_pos hlevel, hinv.matchBranch rfl level hlevel,
        sibling_of_even heven (by rw [hpath, show st.count / 2 ^ level - 2 + 1 =
          st.count / 2 ^ level - 1 by omega]; exact hne), hinv.hash, hpath,
        show st.count / 2 ^ level - 2 + 1 = st.count / 2 ^ level - 1 by omega]
  · intro hnew
    simp only [Bool.or_eq_false_iff, decide_eq_false_iff_not] at hnew
    obtain ⟨hm, hlevel⟩ := hnew
    have hoff := hinv.offPath hm
    have hnotin := (hinv.matchInner hm level (le_refl _) hal).not.mp hlevel
    rw [hcount, hup, hup]
    omega
  · intro hnew l hl hal'
    simp only [Bool.or_eq_false_iff, decide_eq_false_iff_not] at hnew
    rw [hmatch, hcount]
    rw [hcount] at hal'
    exact hinv.matchInner hnew.1 l (by omega) hal'
  · intro hnew l hl
    simp only [Bool.or_eq_false_iff, decide_eq_false_iff_not] at hnew
    rw [hbranch, MerkleState.recordPair_of_unmatched hnew.1 hnew.2]
    rw [hmatch] at hl
    exact hinv.matchBranch hnew.1 l hl
/-- The climb keeps its invariant up to the level where it stops. -/
theorem combineLevels_climbInv {st st' : MerkleState α} {h h' : α} {matchh matchh' : Bool}
    {level t : Nat}
    (hrun : combineLevels hash64 checkMutation st h matchh level = some (st', h', matchh', t))
    (hinv : ClimbInv hash64 leaves branchpos st h matchh level) :
    ClimbInv hash64 leaves branchpos st' h' matchh' t := by
  induction st, h, matchh, level using combineLevels.induct hash64 checkMutation with
  | case1 st h matchh level hlt hzero ih =>
    rw [combineLevels, if_pos hlt, if_pos hzero] at hrun
    exact ih hrun (hinv.next ((and_one_shiftLeft_eq_zero_iff _ _).mp hzero)
      (by simp) (by simp) (by simp) rfl)
  | case2 st h matchh level hlt hset =>
    rw [combineLevels, if_pos hlt, if_neg hset] at hrun
    simp only [Option.some.injEq, Prod.mk.injEq] at hrun
    obtain ⟨rfl, rfl, rfl, rfl⟩ := hrun
    exact hinv
  | case3 st h matchh level hge =>
    rw [combineLevels, if_neg hge] at hrun
    cases hrun

end climbInv

/-! ## The leaves -/

/-- What holds after the first `c` leaves: `inner[l]` is the node over the
block of `2^l` leaves that bit `l` of `c` stands for, `matchlevel` is the
level of the block that holds the matching leaf once it is counted, and the
branch is complete below that level. -/
structure LeafInv (leaves : List α) (branchpos c : Nat) (st : MerkleState α) : Prop where
  count : st.count = c
  inner : ∀ l, c / 2 ^ l % 2 = 1 → st.inner l = node hash64 l (c / 2 ^ l - 1) leaves
  matchBit : ∀ l : Nat, st.matchlevel = l → c / 2 ^ l % 2 = 1
  matchIff : ∀ l : Nat, c / 2 ^ l % 2 = 1 →
    (st.matchlevel = l ↔ branchpos / 2 ^ l = c / 2 ^ l - 1)
  matchBranch : ∀ l : Nat, st.matchlevel = l → st.branch = branch hash64 l branchpos leaves
  before : c ≤ branchpos → st.branch = []

section leaves

variable {hash64} {leaves : List α} {branchpos : Nat}

omit [DecidableEq α] in
theorem leafInv_zero :
    LeafInv hash64 leaves branchpos 0 ⟨0, fun _ => default, -1, false, []⟩ where
  count := rfl
  inner l hl := by simp at hl
  matchBit l hl := by
    have : (-1 : Int) = l := hl
    omega
  matchIff l hl := by simp at hl
  matchBranch l hl := by
    have : (-1 : Int) = l := hl
    omega
  before _ := rfl

omit [DecidableEq α] in
/-- Counting leaf `c` starts a climb from level 0: the leaf is the node of
level 0, and the stored nodes along the carry are its left neighbours. -/
theorem LeafInv.climbInv {c : Nat} {st : MerkleState α} (hinv : LeafInv hash64 leaves branchpos c st)
    (hc : c < leaves.length) :
    ClimbInv hash64 leaves branchpos { st with count := st.count + 1 } (leaves.getD c default)
      (decide (st.count = branchpos)) 0 := by
  have hcount := hinv.count
  have hcarry : ∀ l, (c + 1) % 2 ^ (l + 1) = 0 →
      c / 2 ^ l % 2 = 1 ∧ c / 2 ^ l = (c + 1) / 2 ^ l - 1 := by
    intro l hl
    have hl' : (c + 2 ^ 0) % 2 ^ (l + 1) = 0 := by rwa [pow_zero]
    have hal : (c + 2 ^ 0) % 2 ^ l = 0 := mod_two_pow_eq_zero_of_le hl' (by omega)
    have hdiv := div_add_two_pow (Nat.zero_le l) hal
    rw [pow_zero] at hdiv
    exact ⟨div_two_pow_mod_two_of_carry (Nat.zero_le l) hl', by rw [hdiv, Nat.add_sub_cancel]⟩
  constructor
  · show 0 < st.count + 1
    omega
  · exact Nat.mod_one _
  · show st.count + 1 - 2 ^ 0 < leaves.length
    omega
  · show leaves.getD c default = node hash64 0 ((st.count + 1) / 2 ^ 0 - 1) leaves
    rw [node_zero, hcount, pow_zero, Nat.div_one, Nat.add_sub_cancel]
  · intro l _ hl
    rw [show st.count + 1 = c + 1 by omega] at hl ⊢
    obtain ⟨hbit, hdiv⟩ := hcarry l hl
    show st.inner l = _
    rw [hinv.inner l hbit, hdiv, Nat.sub_sub]
  · intro hm
    have hpos : c = branchpos := by simpa [hcount] using hm
    refine ⟨by simp [hpos, hcount], ?_⟩
    show st.branch = _
    rw [hinv.before (by omega), branch_zero]
  · intro hm
    have hpos : st.count ≠ branchpos := by simpa using hm
    show branchpos / 2 ^ 0 ≠ (st.count + 1) / 2 ^ 0 - 1
    simp only [pow_zero, Nat.div_one, Nat.add_sub_cancel]
    exact Ne.symm hpos
  · intro _ l _ hl
    rw [show st.count + 1 = c + 1 by omega] at hl ⊢
    obtain ⟨hbit, hdiv⟩ := hcarry l hl
    show st.matchlevel = l ↔ _
    rw [hinv.matchIff l hbit, hdiv, Nat.sub_sub]
  · intro _ l hl
    exact hinv.matchBranch l hl

/-- The new `matchlevel` after a climb: the level where it stops if the climb
ends on the path, the old one otherwise. -/
theorem storedMatchlevel_eq_iff {matchh' : Bool} {t l : Nat} {old : Int} :
    (if matchh' then (t : Int) else old) = l ↔ (matchh' = true ∧ l = t) ∨ (matchh' = false ∧ old = l) := by
  cases matchh' <;> simp [eq_comm]

/-- Storing the result of the climb at the level where it stops gives the
invariant for one leaf more. -/
theorem LeafInv.store {c t : Nat} {st st' : MerkleState α} {h' : α} {matchh' : Bool}
    (hinv : LeafInv hash64 leaves branchpos c st)
    (hrun : combineLevels hash64 true { st with count := st.count + 1 } (leaves.getD c default)
      (decide (st.count = branchpos)) 0 = some (st', h', matchh', t))
    (hclimb : ClimbInv hash64 leaves branchpos st' h' matchh' t) :
    LeafInv hash64 leaves branchpos (c + 1)
      { st' with
        inner := Function.update st'.inner t h'
        matchlevel := if matchh' then t else st'.matchlevel } := by
  obtain ⟨hcount, hinner, hmatch, -, hbit, hbelow⟩ := combineLevels_frame hrun
  simp only [hinv.count] at hcount hinner hmatch hbit hbelow
  have hal : (c + 2 ^ 0) % 2 ^ t = 0 := by
    rw [pow_zero, ← hcount]
    exact hclimb.aligned
  have hbit0 : (c + 2 ^ 0) / 2 ^ t % 2 = 1 := by rwa [pow_zero]
  have habove : ∀ l, t < l → (c + 1) / 2 ^ l = c / 2 ^ l := by
    intro l hl
    have hsame := div_add_two_pow_of_lt (Nat.zero_le t) hl hal hbit0
    rwa [pow_zero] at hsame
  have hbitc : c / 2 ^ t % 2 = 0 := by
    have hdiv := div_add_two_pow (Nat.zero_le t) hal
    rw [pow_zero] at hdiv hbit0
    rw [hdiv] at hbit0
    omega
  have hset : ∀ l, (c + 1) / 2 ^ l % 2 = 1 → l = t ∨ t < l := by
    intro l hl
    rcases lt_trichotomy l t with hlt | heq | hgt
    · have := hbelow l (Nat.zero_le l) hlt
      omega
    · exact .inl heq
    · exact .inr hgt
  have hpos : 1 ≤ (c + 1) / 2 ^ t := by
    generalize (c + 1) / 2 ^ t = x at hbit
    omega
  have hpath : matchh' = true → branchpos / 2 ^ t = (c + 1) / 2 ^ t - 1 := by
    intro hm
    rw [← hcount]
    exact (hclimb.onPath hm).1
  have hoff : matchh' = false → branchpos / 2 ^ t ≠ (c + 1) / 2 ^ t - 1 := by
    intro hm
    rw [← hcount]
    exact hclimb.offPath hm
  constructor
  · exact hcount
  · intro l hl
    show Function.update st'.inner t h' l = _
    rcases hset l hl with rfl | hlt
    · rw [Function.update_self, hclimb.hash, hcount]
    · rw [Function.update_of_ne (by omega), hinner, habove l hlt]
      rw [habove l hlt] at hl
      exact hinv.inner l hl
  · intro l hl
    rcases storedMatchlevel_eq_iff.1 hl with ⟨-, rfl⟩ | ⟨hm, hold⟩
    · exact hbit
    · have hc := hinv.matchBit l (hmatch ▸ hold)
      have hpassed := (combineLevels_unmatched hrun hm).2.2
      rcases lt_trichotomy l t with hlt | rfl | hgt
      · exact absurd (hmatch ▸ hold) (hpassed l (Nat.zero_le l) hlt)
      · omega
      · rwa [habove l hgt]
  · intro l hl
    show (if matchh' then (t : Int) else st'.matchlevel) = l ↔ _
    rw [storedMatchlevel_eq_iff, hmatch]
    rcases hset l hl with rfl | hlt
    · cases matchh' with
      | true => simpa using hpath rfl
      | false =>
        have hnot : st.matchlevel ≠ l := fun h => by
          have := hinv.matchBit l h
          omega
        simpa [hnot] using hoff rfl
    · cases matchh' with
      | true =>
        have hup := div_two_pow_of_eq_pred hlt hbit (hpath rfl)
        simp only [true_and, Bool.true_eq_false, false_and, or_false]
        constructor
        · intro h
          omega
        · intro h
          omega
      | false =>
        rw [habove l hlt] at hl ⊢
        simpa using hinv.matchIff l hl
  · intro l hl
    rcases storedMatchlevel_eq_iff.1 hl with ⟨hm, rfl⟩ | ⟨hm, hold⟩
    · exact (hclimb.onPath hm).2
    · show st'.branch = _
      rw [(combineLevels_unmatched hrun hm).2.1]
      exact hinv.matchBranch l (hmatch ▸ hold)
  · intro hle
    cases matchh' with
    | true =>
      have hge : (c + 1) / 2 ^ t ≤ branchpos / 2 ^ t := Nat.div_le_div_right hle
      have := hpath rfl
      omega
    | false =>
      show st'.branch = []
      rw [(combineLevels_unmatched hrun rfl).2.1]
      exact hinv.before (by omega)

/-- One leaf of the first loop keeps the invariant. -/
theorem processLeaf_leafInv {c : Nat} {st : MerkleState α}
    (hinv : LeafInv hash64 leaves branchpos c st) (hc : c < leaves.length)
    (hN : leaves.length < 2 ^ 32) :
    ∃ st', processLeaf hash64 branchpos st (leaves.getD c default) = some st' ∧
      LeafInv hash64 leaves branchpos (c + 1) st' := by
  have hcount := hinv.count
  have hsome : ∃ r, combineLevels hash64 true { st with count := st.count + 1 } (leaves.getD c default)
      (decide (st.count = branchpos)) 0 = some r :=
    combineLevels_isSome (Nat.succ_pos _) (by show st.count + 1 < 2 ^ 32; omega) (Nat.mod_one _)
  obtain ⟨⟨st', h', matchh', t⟩, hrun⟩ := hsome
  refine ⟨_, ?_, hinv.store hrun (combineLevels_climbInv hrun (hinv.climbInv hc))⟩
  rw [processLeaf, hrun]
  rfl

/-- The first loop runs over all the leaves and keeps the invariant. -/
theorem foldlM_processLeaf_leafInv (hN : leaves.length < 2 ^ 32) (k : Nat) :
    ∀ c (st : MerkleState α), c + k = leaves.length → LeafInv hash64 leaves branchpos c st →
      ∃ st', (leaves.drop c).foldlM (processLeaf hash64 branchpos) st = some st' ∧
        LeafInv hash64 leaves branchpos leaves.length st' := by
  induction k with
  | zero =>
    intro c st hk hinv
    refine ⟨st, by rw [List.drop_eq_nil_of_le (by omega)]; rfl, ?_⟩
    rwa [show c = leaves.length by omega] at hinv
  | succ k ih =>
    intro c st hk hinv
    have hc : c < leaves.length := by omega
    obtain ⟨st₁, hstep, hinv₁⟩ := processLeaf_leafInv hinv hc hN
    obtain ⟨st', hrest, hinv'⟩ := ih (c + 1) st₁ (by omega) hinv₁
    refine ⟨st', ?_, hinv'⟩
    rw [List.drop_eq_getElem_cons hc, List.foldlM_cons, ← List.getD_eq_getElem leaves default hc,
      hstep]
    exact hrest

end leaves

/-! ## The sweep -/

omit [DecidableEq α] in
/-- The sweep starts at the lowest set bit of the count. -/
theorem lowestSetLevel_spec {count level : Nat} (hpos : 0 < count) (hlt : count < 2 ^ 32)
    (hal : count % 2 ^ level = 0) :
    ∃ t, lowestSetLevel count level = some t ∧ count % 2 ^ t = 0 ∧ count / 2 ^ t % 2 = 1 := by
  induction level using lowestSetLevel.induct count with
  | case1 level hlevel hzero ih =>
    rw [lowestSetLevel, if_pos hlevel, if_pos hzero]
    exact ih (mod_two_pow_succ_eq_zero_iff.2 ⟨hal, (and_one_shiftLeft_eq_zero_iff _ _).mp hzero⟩)
  | case2 level hlevel hset =>
    rw [lowestSetLevel, if_pos hlevel, if_neg hset]
    have hbit : ¬ count / 2 ^ level % 2 = 0 := fun h0 => hset ((and_one_shiftLeft_eq_zero_iff _ _).mpr h0)
    exact ⟨level, rfl, hal, by omega⟩
  | case3 level hge =>
    have hall : count % 2 ^ 32 = 0 := mod_two_pow_eq_zero_of_le hal (by omega)
    rw [Nat.mod_eq_of_lt hlt] at hall
    omega

/-- What holds at the top of each round of the sweep at `level`: the count is
the number of leaves rounded up to a multiple of `2^level`, `h` is the last
node of the level, `inner` holds the nodes of the blocks that the higher set
bits of the count stand for, and the branch is complete below `level` when
`h` covers the matching leaf, or below `matchlevel` otherwise. -/
structure SweepInv (leaves : List α) (branchpos : Nat) (st : MerkleState α) (h : α)
    (matchh : Bool) (level : Nat) : Prop where
  aligned : st.count % 2 ^ level = 0
  bit : st.count / 2 ^ level % 2 = 1
  covers : st.count - 2 ^ level < leaves.length
  covered : leaves.length ≤ st.count
  height : level ≤ Nat.clog 2 leaves.length
  hash : h = node hash64 level (st.count / 2 ^ level - 1) leaves
  inner : ∀ l, level < l → st.count / 2 ^ l % 2 = 1 →
    st.inner l = node hash64 l (st.count / 2 ^ l - 1) leaves
  onPath : matchh = true → branchpos / 2 ^ level = st.count / 2 ^ level - 1 ∧
    st.branch = branch hash64 level branchpos leaves
  offPath : matchh = false → branchpos / 2 ^ level ≠ st.count / 2 ^ level - 1
  matchBit : matchh = false → ∀ l : Nat, st.matchlevel = l → level < l ∧ st.count / 2 ^ l % 2 = 1
  matchIff : matchh = false → ∀ l : Nat, level < l → st.count / 2 ^ l % 2 = 1 →
    (st.matchlevel = l ↔ branchpos / 2 ^ l = st.count / 2 ^ l - 1)
  matchBranch : matchh = false → ∀ l : Nat, st.matchlevel = l →
    st.branch = branch hash64 l branchpos leaves

section sweep

variable {hash64} {leaves : List α} {branchpos : Nat}

omit [DecidableEq α] in
/-- After the last leaf, the sweep starts from the lowest set bit of the count
with the node stored there. -/
theorem LeafInv.sweepInv {st : MerkleState α} {level : Nat}
    (hinv : LeafInv hash64 leaves branchpos leaves.length st)
    (hal : leaves.length % 2 ^ level = 0) (hbit : leaves.length / 2 ^ level % 2 = 1) :
    SweepInv hash64 leaves branchpos st (st.inner level) (decide (st.matchlevel = level)) level := by
  have hcount := hinv.count
  have hpow : 2 ^ level ≤ leaves.length := by
    have hq : 1 ≤ leaves.length / 2 ^ level := by
      generalize leaves.length / 2 ^ level = q at hbit
      omega
    have hmul := (Nat.le_div_iff_mul_le (Nat.two_pow_pos level)).mp hq
    rwa [Nat.one_mul] at hmul
  constructor
  · rwa [hcount]
  · rwa [hcount]
  · have := Nat.two_pow_pos level
    rw [hcount]
    omega
  · rw [hcount]
  · calc level = Nat.clog 2 (2 ^ level) := (Nat.clog_pow 2 level (by decide)).symm
      _ ≤ Nat.clog 2 leaves.length := Nat.clog_mono_right 2 hpow
  · rw [hcount]
    exact hinv.inner level hbit
  · intro l _ hl
    rw [hcount] at hl ⊢
    exact hinv.inner l hl
  · intro hm
    have hlevel : st.matchlevel = level := by simpa using hm
    rw [hcount]
    exact ⟨(hinv.matchIff level hbit).mp hlevel, hinv.matchBranch level hlevel⟩
  · intro hm
    have hlevel : st.matchlevel ≠ level := by simpa using hm
    rw [hcount]
    exact fun h => hlevel ((hinv.matchIff level hbit).mpr h)
  · intro hm l hl
    have hlevel : st.matchlevel ≠ level := by simpa using hm
    have hset := hinv.matchBit l hl
    rw [hcount]
    refine ⟨?_, hset⟩
    rcases lt_trichotomy level l with hlt | rfl | hgt
    · exact hlt
    · exact absurd hl hlevel
    · have := div_two_pow_mod_two_of_lt hal hgt
      omega
  · intro _ l _ hl
    rw [hcount] at hl ⊢
    exact hinv.matchIff l hl
  · intro _ l hl
    exact hinv.matchBranch l hl

omit [DecidableEq α] in
/-- A round of the sweep pairs `h` with itself and counts the missing half: the
climb from the next level then starts with its invariant. -/
theorem SweepInv.climbInv {st st₁ : MerkleState α} {h : α} {matchh : Bool} {level : Nat}
    (hinv : SweepInv hash64 leaves branchpos st h matchh level) (hp : branchpos < leaves.length)
    (hcount : st₁.count = st.count + 2 ^ level) (hinner : st₁.inner = st.inner)
    (hmatch : st₁.matchlevel = st.matchlevel)
    (hbranch : st₁.branch = if matchh then st.branch ++ [h] else st.branch) :
    ClimbInv hash64 leaves branchpos st₁ (hash64 h h) matchh (level + 1) := by
  have hcu : st.count / 2 ^ level * 2 ^ level = st.count :=
    Nat.div_mul_cancel (Nat.dvd_of_mod_eq_zero hinv.aligned)
  have hpow : 2 ^ (level + 1) = 2 ^ level * 2 := pow_succ 2 level
  have hup : ∀ x, x / 2 ^ (level + 1) = x / 2 ^ level / 2 := fun x => div_two_pow_succ x level
  have hal0 : (st.count + 2 ^ level) % 2 ^ level = 0 := by
    rw [Nat.add_mod_right]
    exact hinv.aligned
  have hdiv : (st.count + 2 ^ level) / 2 ^ level = st.count / 2 ^ level + 1 :=
    div_add_two_pow (le_refl level) hal0
  have hodd := hinv.bit
  have hcovers := hinv.covers
  have hcovered := hinv.covered
  have hpu : branchpos / 2 ^ level < st.count / 2 ^ level :=
    Nat.div_lt_div_of_lt_of_dvd (Nat.dvd_of_mod_eq_zero hinv.aligned) (by omega)
  have hnil : chunk level (st.count / 2 ^ level) leaves = [] := by
    rw [chunk_eq_nil_iff, hcu]
    exact hcovered
  have hcarry : ∀ l, level + 1 ≤ l → (st.count + 2 ^ level) % 2 ^ (l + 1) = 0 →
      st.count / 2 ^ l % 2 = 1 ∧ st.count / 2 ^ l = (st.count + 2 ^ level) / 2 ^ l - 1 := by
    intro l hl hal
    have hall : (st.count + 2 ^ level) % 2 ^ l = 0 := mod_two_pow_eq_zero_of_le hal (by omega)
    have hstep := div_add_two_pow (show level ≤ l by omega) hall
    exact ⟨div_two_pow_mod_two_of_carry (by omega) hal, by rw [hstep, Nat.add_sub_cancel]⟩
  constructor
  · rw [hcount]
    exact Nat.add_pos_right _ (Nat.two_pow_pos level)
  · rw [hcount]
    exact mod_two_pow_succ_eq_zero_iff.2 ⟨hal0, by rw [hdiv]; omega⟩
  · rw [hcount]
    omega
  · have hj : (st.count / 2 ^ level + 1) / 2 - 1 = (st.count / 2 ^ level - 1) / 2 := by
      generalize st.count / 2 ^ level = u at hodd ⊢
      omega
    have hleft : 2 * ((st.count / 2 ^ level - 1) / 2) = st.count / 2 ^ level - 1 := by
      generalize st.count / 2 ^ level = u at hodd ⊢
      omega
    have hright : 2 * ((st.count / 2 ^ level - 1) / 2) + 1 = st.count / 2 ^ level := by
      generalize st.count / 2 ^ level = u at hodd ⊢
      omega
    rw [hcount, hup, hdiv, hj, node_succ_of_nil (by rw [hright]; exact hnil), hleft, ← hinv.hash]
  · intro l hl hal
    rw [hcount] at hal
    obtain ⟨hbit, hquot⟩ := hcarry l hl hal
    rw [hinner, hcount, hinv.inner l (by omega) hbit, hquot, Nat.sub_sub]
  · intro hm
    obtain ⟨hpath, hbr⟩ := hinv.onPath hm
    have heven : branchpos / 2 ^ level % 2 = 0 := by omega
    refine ⟨by rw [hcount, hup, hup, hdiv, hpath]; omega, ?_⟩
    rw [hbranch, if_pos hm, hbr, branch_succ,
      sibling_of_even_of_nil heven (by rw [hpath, Nat.sub_add_cancel (by omega)]; exact hnil),
      hpath, ← hinv.hash]
  · intro hm
    have hoff := hinv.offPath hm
    rw [hcount, hup, hup, hdiv]
    omega
  · intro hm l hl hal
    rw [hcount] at hal
    obtain ⟨hbit, hquot⟩ := hcarry l hl hal
    rw [hmatch, hinv.matchIff hm l (by omega) hbit, hcount, hquot, Nat.sub_sub]
  · intro hm l hl
    rw [hbranch, if_neg (by simp [hm])]
    exact hinv.matchBranch hm l (hmatch ▸ hl)

omit [DecidableEq α] in
/-- A round of the sweep happens below the height of the tree, and the padded
count still fits in a tree of that height. -/
theorem SweepInv.fits {st : MerkleState α} {h : α} {matchh : Bool} {level : Nat}
    (hinv : SweepInv hash64 leaves branchpos st h matchh level) (hne : st.count ≠ 2 ^ level) :
    level < Nat.clog 2 leaves.length ∧
      st.count + 2 ^ level ≤ 2 ^ Nat.clog 2 leaves.length := by
  have hcu : st.count / 2 ^ level * 2 ^ level = st.count :=
    Nat.div_mul_cancel (Nat.dvd_of_mod_eq_zero hinv.aligned)
  have htop : leaves.length ≤ 2 ^ Nat.clog 2 leaves.length := Nat.le_pow_clog (by decide) _
  have hcovers := hinv.covers
  have hodd := hinv.bit
  have hlt : level < Nat.clog 2 leaves.length := by
    rcases Nat.eq_or_lt_of_le hinv.height with heq | hlt
    · rw [← heq] at htop
      have hu : st.count / 2 ^ level < 2 := by
        rw [Nat.div_lt_iff_lt_mul (Nat.two_pow_pos level)]
        omega
      have hone : st.count / 2 ^ level = 1 := by
        generalize st.count / 2 ^ level = u at hu hodd
        omega
      rw [hone, Nat.one_mul] at hcu
      exact absurd hcu.symm hne
    · exact hlt
  refine ⟨hlt, @le_of_sub_lt_of_mod_eq_zero (st.count + 2 ^ level) (2 ^ Nat.clog 2 leaves.length)
    (2 ^ (level + 1)) ?_ ?_ ?_⟩
  · have hal : (st.count + 2 ^ level) % 2 ^ level = 0 := by
      rw [Nat.add_mod_right]
      exact hinv.aligned
    refine mod_two_pow_succ_eq_zero_iff.2 ⟨hal, ?_⟩
    rw [div_add_two_pow (le_refl level) hal]
    omega
  · exact Nat.mod_eq_zero_of_dvd (Nat.pow_dvd_pow 2 hlt)
  · rw [pow_succ]
    omega

/-- The climb that ends a round of the sweep stops at the level of the next
round, with the sweep's invariant there. -/
theorem SweepInv.resume {st st₁ st' : MerkleState α} {h h' : α} {matchh matchh' : Bool}
    {level t : Nat} (hinv : SweepInv hash64 leaves branchpos st h matchh level)
    (hcount : st₁.count = st.count + 2 ^ level) (hinner : st₁.inner = st.inner)
    (hmatch : st₁.matchlevel = st.matchlevel)
    (hbranch : st₁.branch = if matchh then st.branch ++ [h] else st.branch)
    (hfit : st.count + 2 ^ level ≤ 2 ^ Nat.clog 2 leaves.length)
    (hrun : combineLevels hash64 false st₁ (hash64 h h) matchh (level + 1) = some (st', h', matchh', t))
    (hclimb : ClimbInv hash64 leaves branchpos st' h' matchh' t) :
    SweepInv hash64 leaves branchpos st' h' matchh' t := by
  obtain ⟨hc', hinner', hmatch', hle, hbit, -⟩ := combineLevels_frame hrun
  rw [hcount] at hc' hbit
  rw [hinner] at hinner'
  rw [hmatch] at hmatch'
  have hal : (st.count + 2 ^ level) % 2 ^ t = 0 := by
    rw [← hc']
    exact hclimb.aligned
  have habove : ∀ l, t < l → (st.count + 2 ^ level) / 2 ^ l = st.count / 2 ^ l :=
    fun l hl => div_add_two_pow_of_lt (by omega) hl hal hbit
  have hbitc : st.count / 2 ^ t % 2 = 0 := by
    have hdiv := div_add_two_pow (show level ≤ t by omega) hal
    rw [hdiv] at hbit
    omega
  constructor
  · rw [hc']
    exact hal
  · rw [hc']
    exact hbit
  · exact hclimb.covers
  · rw [hc']
    exact Nat.le_add_right_of_le hinv.covered
  · by_contra hgt
    have hdvd : (st.count + 2 ^ level) % 2 ^ (Nat.clog 2 leaves.length + 1) = 0 :=
      mod_two_pow_eq_zero_of_le hal (by omega)
    have hge := Nat.le_of_dvd (Nat.add_pos_right _ (Nat.two_pow_pos level))
      (Nat.dvd_of_mod_eq_zero hdvd)
    rw [pow_succ] at hge
    have := Nat.two_pow_pos (Nat.clog 2 leaves.length)
    omega
  · exact hclimb.hash
  · intro l hl hb
    rw [hc', habove l hl] at hb ⊢
    rw [hinner']
    exact hinv.inner l (by omega) hb
  · exact hclimb.onPath
  · exact hclimb.offPath
  · intro hm l hl
    obtain ⟨hm₀, -, hpassed⟩ := combineLevels_unmatched hrun hm
    rw [hmatch'] at hl
    obtain ⟨hlt, hb⟩ := hinv.matchBit hm₀ l hl
    rcases lt_trichotomy l t with hlt' | rfl | hgt
    · exact absurd (hmatch ▸ hl) (hpassed l (by omega) hlt')
    · omega
    · rw [hc', habove l hgt]
      exact ⟨hgt, hb⟩
  · intro hm l hl hb
    obtain ⟨hm₀, -, -⟩ := combineLevels_unmatched hrun hm
    rw [hc', habove l hl] at hb ⊢
    rw [hmatch']
    exact hinv.matchIff hm₀ l (by omega) hb
  · intro hm l hl
    obtain ⟨hm₀, hbr, -⟩ := combineLevels_unmatched hrun hm
    rw [hbr, hbranch, if_neg (by simp [hm₀])]
    rw [hmatch'] at hl
    exact hinv.matchBranch hm₀ l hl

omit [DecidableEq α] in
/-- The state that a round of the sweep climbs from: `h` recorded if it covers
the matching leaf, and the count padded by `2^level`, which stays below `2^32`
for at most `2^31` leaves. -/
theorem SweepInv.pad {st : MerkleState α} {h : α} {matchh : Bool} {level : Nat}
    (hinv : SweepInv hash64 leaves branchpos st h matchh level) (hN : leaves.length ≤ 2 ^ 31)
    (hdone : ¬ st.count = 1 <<< level) :
    let st₁ := if matchh then { st with branch := st.branch ++ [h] } else st
    let padded : MerkleState α := { st₁ with count := (st.count + 1 <<< level) % 2 ^ 32 }
    padded.count = st.count + 2 ^ level ∧ padded.inner = st.inner ∧
      padded.matchlevel = st.matchlevel ∧
      padded.branch = (if matchh then st.branch ++ [h] else st.branch) ∧
      st.count + 2 ^ level ≤ 2 ^ Nat.clog 2 leaves.length := by
  obtain ⟨-, hfit⟩ := hinv.fits (by rwa [Nat.one_shiftLeft] at hdone)
  have hH : Nat.clog 2 leaves.length ≤ 31 := by
    calc Nat.clog 2 leaves.length ≤ Nat.clog 2 (2 ^ 31) := Nat.clog_mono_right 2 hN
      _ = 31 := Nat.clog_pow 2 31 (by decide)
  have htop : 2 ^ Nat.clog 2 leaves.length < 2 ^ 32 := Nat.pow_lt_pow_right (by decide) (by omega)
  refine ⟨?_, ?_, ?_, ?_, hfit⟩
  · show (st.count + 1 <<< level) % 2 ^ 32 = _
    rw [Nat.one_shiftLeft, Nat.mod_eq_of_lt (by omega)]
  all_goals cases matchh <;> rfl

/-- The sweep ends at the root, at the height of the tree, with the branch of
the matching leaf complete. -/
theorem sweep_sweepInv {st : MerkleState α} {h : α} {matchh : Bool} {level : Nat}
    (hinv : SweepInv hash64 leaves branchpos st h matchh level)
    (hp : branchpos < leaves.length) (hN : leaves.length ≤ 2 ^ 31) :
    ∃ st', sweep hash64 st h matchh level =
        some (st', node hash64 (Nat.clog 2 leaves.length) 0 leaves) ∧
      st'.branch = branch hash64 (Nat.clog 2 leaves.length) branchpos leaves := by
  have hH : Nat.clog 2 leaves.length ≤ 31 := by
    calc Nat.clog 2 leaves.length ≤ Nat.clog 2 (2 ^ 31) := Nat.clog_mono_right 2 hN
      _ = 31 := Nat.clog_pow 2 31 (by decide)
  induction st, h, matchh, level using sweep.induct hash64 with
  | case1 st h matchh level hlt hdone =>
    have hpow : st.count = 2 ^ level := by rw [hdone, Nat.one_shiftLeft]
    have hcovered : leaves.length ≤ 2 ^ level := hpow ▸ hinv.covered
    have hheight : level = Nat.clog 2 leaves.length :=
      le_antisymm hinv.height (Nat.clog_le_of_le_pow hcovered)
    have hq : st.count / 2 ^ level = 1 := by rw [hpow, Nat.div_self (Nat.two_pow_pos level)]
    have hp0 : branchpos / 2 ^ level = 0 := Nat.div_eq_of_lt (lt_of_lt_of_le hp hcovered)
    have hm : matchh = true := by
      by_contra hm
      exact hinv.offPath (by simpa using hm) (by rw [hp0, hq])
    obtain ⟨-, hbr⟩ := hinv.onPath hm
    refine ⟨st, ?_, by rw [hbr, hheight]⟩
    rw [sweep, if_pos hlt, if_pos hdone, hinv.hash, hq, ← hheight]
  | case2 st h matchh level hlt hdone st₁ st' h' matchh' t hrun ih =>
    obtain ⟨hcount, hinner, hmatch, hbranch, hfit⟩ := hinv.pad hN hdone
    have hclimb := combineLevels_climbInv hrun (hinv.climbInv hp hcount hinner hmatch hbranch)
    obtain ⟨st'', hsweep, hbr⟩ := ih (hinv.resume hcount hinner hmatch hbranch hfit hrun hclimb)
    refine ⟨st'', ?_, hbr⟩
    rw [sweep_of_combineLevels hlt hdone hrun]
    exact hsweep
  | case3 st h matchh level hlt hdone st₁ hnone =>
    obtain ⟨hcount, hinner, hmatch, hbranch, hfit⟩ := hinv.pad hN hdone
    have hclimb := hinv.climbInv hp hcount hinner hmatch hbranch
    have hH : 2 ^ Nat.clog 2 leaves.length < 2 ^ 32 := Nat.pow_lt_pow_right (by decide) (by omega)
    have hsome : ∃ r, combineLevels hash64 false _ (hash64 h h) matchh (level + 1) = some r :=
      combineLevels_isSome hclimb.pos (by rw [hcount]; omega) hclimb.aligned
    obtain ⟨r, hr⟩ := hsome
    have hcontra : (none : Option (MerkleState α × α × Bool × Nat)) = some r := hnone.symm.trans hr
    cases hcontra
  | case4 st h matchh level hge =>
    have := hinv.height
    omega

end sweep

/-! ## The result -/

section result

variable {hash64} {leaves : List α} {branchpos : Nat}

/-- Up to `2^31` leaves, `MerkleComputation` returns the root of the padded
tree and the path of leaf `branchpos` in it. -/
theorem merkleComputation_eq_some (hp : branchpos < leaves.length) (hN : leaves.length ≤ 2 ^ 31) :
    ∃ mutated, merkleComputation hash64 leaves branchpos =
      some (node hash64 (Nat.clog 2 leaves.length) 0 leaves, mutated,
        branch hash64 (Nat.clog 2 leaves.length) branchpos leaves) := by
  have hne : leaves ≠ [] := List.ne_nil_of_length_pos (by omega)
  obtain ⟨stL, hfold, hleaf⟩ : ∃ st', (leaves.drop 0).foldlM (processLeaf hash64 branchpos)
      ⟨0, fun _ => default, -1, false, []⟩ = some st' ∧
      LeafInv hash64 leaves branchpos leaves.length st' :=
    foldlM_processLeaf_leafInv (by omega) leaves.length 0 _ (by omega) leafInv_zero
  rw [List.drop_zero] at hfold
  have hcount := hleaf.count
  obtain ⟨level, hlow, hal, hbit⟩ : ∃ t, lowestSetLevel stL.count 0 = some t ∧
      stL.count % 2 ^ t = 0 ∧ stL.count / 2 ^ t % 2 = 1 :=
    lowestSetLevel_spec (by omega) (by omega) (Nat.mod_one _)
  rw [hcount] at hal hbit
  obtain ⟨stS, hsweep, hbr⟩ := sweep_sweepInv (hleaf.sweepInv hal hbit) hp hN
  refine ⟨stS.mutated, ?_⟩
  rw [merkleComputation, if_neg hne]
  simp only [hfold, Option.bind_eq_bind, Option.bind_some, hlow, hsweep, hbr, Option.pure_def]

/-- `ComputeMerkleBranch` returns, for up to `2^31` leaves, the branch read off
the levels of `ComputeMerkleRoot`, and every branch it returns climbs from
its leaf to the root that `ComputeMerkleRoot` computes. -/
theorem merkle_branch_verifies (hp : branchpos < leaves.length)
    (hN : leaves.length ≤ 2 ^ 31) :
    computeMerkleBranch hash64 leaves branchpos = some (levelBranch hash64 leaves branchpos) ∧
      ∀ b, computeMerkleBranch hash64 leaves branchpos = some b →
        computeMerkleRootFromBranch hash64 (leaves.getD branchpos default) b branchpos =
          (computeMerkleRoot hash64 leaves).1 := by
  obtain ⟨mutated, hrun⟩ :
      ∃ mutated, merkleComputation hash64 leaves branchpos = some (_, mutated, _) :=
    merkleComputation_eq_some hp hN
  have hbranch : computeMerkleBranch hash64 leaves branchpos = some (levelBranch hash64 leaves branchpos) := by
    rw [computeMerkleBranch, hrun, levelBranch_eq_branch hp]
    rfl
  refine ⟨hbranch, ?_⟩
  intro b hb
  rw [hbranch, Option.some.injEq] at hb
  subst hb
  rw [computeMerkleRootFromBranch_levelBranch hp false]
  rfl

theorem merkle_branch_verifies_three :
    2 < [1, 2, 3].length ∧ [1, 2, 3].length ≤ 2 ^ 31 ∧
      (computeMerkleBranch (fun a b : Nat => 2 * a + b) [1, 2, 3] 2 =
          some (levelBranch (fun a b : Nat => 2 * a + b) [1, 2, 3] 2) ∧
        ∀ b, computeMerkleBranch (fun a b : Nat => 2 * a + b) [1, 2, 3] 2 = some b →
          computeMerkleRootFromBranch (fun a b : Nat => 2 * a + b) ([1, 2, 3].getD 2 default) b 2 =
            (computeMerkleRoot (fun a b : Nat => 2 * a + b) [1, 2, 3]).1) :=
  ⟨by decide, by decide, merkle_branch_verifies (by decide) (by decide)⟩

omit [Inhabited α] in
/-- Above `2^31` leaves the sweep never ends well: the padded count reaches
`2^32`, wraps to zero, and the climb from it shifts a 32-bit one by 32. -/
theorem sweep_eq_none {st : MerkleState α} {h : α} {matchh : Bool} {level : Nat}
    (hal : st.count % 2 ^ level = 0) (hbit : st.count / 2 ^ level % 2 = 1)
    (hbig : 2 ^ 31 < st.count) (hlt : st.count < 2 ^ 32) :
    sweep hash64 st h matchh level = none := by
  induction st, h, matchh, level using sweep.induct hash64 with
  | case1 st h matchh level hlevel hdone =>
    have hpow : st.count = 2 ^ level := by rw [hdone, Nat.one_shiftLeft]
    have hle : 2 ^ level ≤ 2 ^ 31 := Nat.pow_le_pow_right (by decide) (by omega)
    omega
  | case2 st h matchh level hlevel hdone st₁ st' h' matchh' t hrun ih =>
    rw [sweep_of_combineLevels hlevel hdone hrun]
    have hpad : st.count + 2 ^ level ≤ 2 ^ 32 :=
      le_of_sub_lt_of_mod_eq_zero (Nat.add_mod_right _ _ ▸ hal)
        (Nat.mod_eq_zero_of_dvd (Nat.pow_dvd_pow 2 (by omega))) (by omega)
    rcases Nat.eq_or_lt_of_le hpad with hwrap | hfits
    · have hwrapped : (st.count + 1 <<< level) % 2 ^ 32 = 0 := by
        rw [Nat.one_shiftLeft, hwrap, Nat.mod_self]
      have hzero : combineLevels hash64 false
          { st₁ with count := (st.count + 1 <<< level) % 2 ^ 32 } (hash64 h h) matchh (level + 1) =
            none :=
        combineLevels_of_count_eq_zero hwrapped (by omega)
      rw [hrun] at hzero
      cases hzero
    · have hcount : (st.count + 1 <<< level) % 2 ^ 32 = st.count + 2 ^ level := by
        rw [Nat.one_shiftLeft, Nat.mod_eq_of_lt hfits]
      obtain ⟨hc', -, -, hle, hbit', hbelow⟩ := combineLevels_frame hrun
      simp only [hcount] at hc' hbit' hbelow
      have hal' : (st.count + 2 ^ level) % 2 ^ t = 0 :=
        mod_two_pow_eq_zero_of_bits (add_two_pow_mod_two_pow_succ hal hbit) hle hbelow
      apply ih <;> rw [hc']
      · exact hal'
      · exact hbit'
      · omega
      · exact hfits
  | case3 st h matchh level hlevel hdone st₁ hnone =>
    exact sweep_of_combineLevels_none hlevel hdone hnone
  | case4 st h matchh level hge =>
    rw [sweep, if_neg hge]

/-- Between `2^31` and `2^32` leaves, `MerkleComputation` has undefined
behaviour whatever the position. -/
theorem merkleComputation_eq_none (hN : 2 ^ 31 < leaves.length) (hN' : leaves.length < 2 ^ 32) :
    merkleComputation hash64 leaves branchpos = none := by
  have hne : leaves ≠ [] := List.ne_nil_of_length_pos (by omega)
  obtain ⟨stL, hfold, hleaf⟩ : ∃ st', (leaves.drop 0).foldlM (processLeaf hash64 branchpos)
      ⟨0, fun _ => default, -1, false, []⟩ = some st' ∧
      LeafInv hash64 leaves branchpos leaves.length st' :=
    foldlM_processLeaf_leafInv hN' leaves.length 0 _ (by omega) leafInv_zero
  rw [List.drop_zero] at hfold
  have hcount := hleaf.count
  obtain ⟨level, hlow, hal, hbit⟩ : ∃ t, lowestSetLevel stL.count 0 = some t ∧
      stL.count % 2 ^ t = 0 ∧ stL.count / 2 ^ t % 2 = 1 :=
    lowestSetLevel_spec (by omega) (by omega) (Nat.mod_one _)
  have hsweep : sweep hash64 stL (stL.inner level) (decide (stL.matchlevel = level)) level = none :=
    sweep_eq_none hal hbit (by omega) (by omega)
  rw [merkleComputation, if_neg hne]
  simp only [hfold, Option.bind_eq_bind, Option.bind_some, hlow, hsweep, Option.bind_none]

theorem computeMerkleBranch_replicate_undefined :
    computeMerkleBranch (fun a b => a + b) (List.replicate (2 ^ 31 + 1) 0) 0 = none := by
  have hlen : (List.replicate (2 ^ 31 + 1) 0).length = 2 ^ 31 + 1 := List.length_replicate
  rw [computeMerkleBranch, merkleComputation_eq_none (by rw [hlen]; omega) (by rw [hlen]; omega)]
  rfl

end result

end Membercoin
