import Membercoin.Lib.Forest

/-!
# Block index ancestry (chain.cpp)

`CBlockIndex::GetAncestor` walks back from a block to the ancestor at a given
height, jumping along `pskip` where that does not overshoot, and `BuildSkip`
sets `pskip` with it. A block index is modelled by its `pprev`, `pskip` and
`nHeight`; a value of `B` stands for a pointer to it. Once `BuildSkip` has
run on every block, `pskip` points at the ancestor at `GetSkipHeight`
(`skipCorrect_of_skipsBuilt`) and `GetAncestor` returns the ancestor at the
height asked for (`getAncestor_eq_up`). `GetMedianTimePast` reads the block
times along `pprev`, given as a function of the block.
-/

namespace Membercoin

/-- `InvertLowestOne`: clear the lowest set bit. -/
def invertLowestOne (n : Nat) : Nat := n &&& (n - 1)

/-- `GetSkipHeight`: the height that `pskip` jumps back to. -/
def getSkipHeight (height : Nat) : Nat :=
  if height < 2 then 0
  else if height % 2 = 1 then invertLowestOne (invertLowestOne (height - 1)) + 1
  else invertLowestOne height

theorem invertLowestOne_le (n : Nat) : invertLowestOne n ≤ n - 1 := Nat.and_le_right

theorem getSkipHeight_lt {height : Nat} (h : 0 < height) : getSkipHeight height < height := by
  unfold getSkipHeight
  split_ifs with hsmall hodd
  · omega
  · have hinner := invertLowestOne_le (height - 1)
    have houter := invertLowestOne_le (invertLowestOne (height - 1))
    omega
  · have := invertLowestOne_le height
    omega

/-- The fields of `CBlockIndex` that `GetAncestor` and `GetASERTAnchorBlock`
read. Heights drop by one along `pprev` down to the genesis block at height
zero, and `pskip` points lower. -/
structure BlockTree (B : Type) where
  pprev : B → Option B
  pskip : B → Option B
  nHeight : B → Nat
  height_pprev : ∀ b p, pprev b = some p → nHeight p + 1 = nHeight b
  height_genesis : ∀ b, pprev b = none → nHeight b = 0
  height_pskip : ∀ b s, pskip b = some s → nHeight s < nHeight b

namespace BlockTree

variable {B : Type} (t : BlockTree B)

/-- The test of `GetAncestor` for following `pskip` from `heightWalk`: it
must not overshoot `height`, and `pprev->pskip` must not be better. -/
def followSkip (height heightWalk : Nat) : Bool :=
  getSkipHeight heightWalk == height ||
    (height < getSkipHeight heightWalk &&
      !(getSkipHeight (heightWalk - 1) < getSkipHeight heightWalk - 2 &&
        height ≤ getSkipHeight (heightWalk - 1)))

/-- The loop of `GetAncestor`. A missing `pprev` is the failed assertion. -/
def getAncestorWalk (height : Nat) (pindexWalk : B) (heightWalk : Nat) : Option B :=
  if height < heightWalk then
    match (t.pskip pindexWalk).filter fun _ => followSkip height heightWalk with
    | some pskip => getAncestorWalk height pskip (getSkipHeight heightWalk)
    | none =>
      match t.pprev pindexWalk with
      | some pprev => getAncestorWalk height pprev (heightWalk - 1)
      | none => none
  else some pindexWalk
termination_by heightWalk
decreasing_by
  · exact getSkipHeight_lt (by omega)
  · omega

/-- `GetAncestor`. -/
def getAncestor (b : B) (height : Nat) : Option B :=
  if t.nHeight b < height then none else t.getAncestorWalk height b (t.nHeight b)

/-- `BuildSkip` has run on every block. -/
def SkipsBuilt : Prop :=
  ∀ b, t.pskip b = (t.pprev b).bind fun p => t.getAncestor p (getSkipHeight (t.nHeight b))

/-- `pskip` of `b` is its ancestor at `GetSkipHeight`, or null at the genesis
block. -/
def SkipCorrect (b : B) : Prop :=
  t.pskip b = (t.pprev b).bind fun _ =>
    Forest.up t.pprev b (t.nHeight b - getSkipHeight (t.nHeight b))

theorem up_height {b a : B} {n : Nat} (h : Forest.up t.pprev b n = some a) :
    t.nHeight a + n = t.nHeight b :=
  Forest.height_of_up t.height_pprev h

theorem up_isSome {b : B} {n : Nat} (hn : n ≤ t.nHeight b) : ∃ a, Forest.up t.pprev b n = some a :=
  Forest.up_isSome t.height_pprev t.height_genesis hn

/-- A correct `pskip` is an ancestor at `GetSkipHeight`. -/
theorem SkipCorrect.pskip {b s : B} (hb : t.SkipCorrect b) (hs : t.pskip b = some s) :
    Forest.up t.pprev b (t.nHeight b - getSkipHeight (t.nHeight b)) = some s := by
  rw [hb] at hs
  cases hp : t.pprev b with
  | none =>
    rw [hp] at hs
    cases hs
  | some p =>
    rw [hp, Option.bind_some] at hs
    exact hs

/-- While `pskip` is correct at every block up to the height of the walk, the
walk of `GetAncestor` ends at the ancestor at the height asked for. -/
theorem getAncestorWalk_eq_up {height : Nat} (n : Nat) :
    ∀ w, t.nHeight w = n → height ≤ n → (∀ c, t.nHeight c ≤ n → t.SkipCorrect c) →
      t.getAncestorWalk height w n = Forest.up t.pprev w (n - height) := by
  induction n using Nat.strong_induction_on with
  | _ n ih =>
    intro w hw hle hskips
    rw [getAncestorWalk]
    split_ifs with hlt
    · split
      · next pskip hfilter =>
        obtain ⟨hs, hfollow⟩ := Option.filter_eq_some_iff.mp hfilter
        have hup := SkipCorrect.pskip t (hskips w hw.le) hs
        rw [hw] at hup
        have hsh : t.nHeight pskip = getSkipHeight n := by
          have := t.up_height hup
          have := getSkipHeight_lt (show 0 < n by omega)
          omega
        have hge : height ≤ getSkipHeight n := by
          unfold followSkip at hfollow
          simp only [Bool.or_eq_true, beq_iff_eq, Bool.and_eq_true, decide_eq_true_eq] at hfollow
          omega
        have hlow := getSkipHeight_lt (show 0 < n by omega)
        rw [ih _ hlow pskip hsh hge (fun c hc => hskips c (by omega)),
          show n - height = (n - getSkipHeight n) + (getSkipHeight n - height) by omega,
          Forest.up_add, hup, Option.bind_some]
      · next hfilter =>
        cases hp : t.pprev w with
        | none =>
          have := t.height_genesis w hp
          omega
        | some p =>
          have hpn : t.nHeight p = n - 1 := by
            have := t.height_pprev w p hp
            omega
          dsimp only
          rw [ih (n - 1) (by omega) p hpn (by omega) (fun c hc => hskips c (by omega)),
            show n - height = (n - 1 - height) + 1 by omega, Forest.up_succ, hp, Option.bind_some]
    · rw [show n - height = 0 by omega, Forest.up_zero]

/-- `GetAncestor` from a block whose ancestors all have a correct `pskip`. -/
theorem getAncestor_eq_up_of_skips {b : B} (hskips : ∀ c, t.nHeight c ≤ t.nHeight b → t.SkipCorrect c)
    (height : Nat) :
    t.getAncestor b height =
      if t.nHeight b < height then none else Forest.up t.pprev b (t.nHeight b - height) := by
  rw [getAncestor]
  split_ifs with hlt
  · rfl
  · exact t.getAncestorWalk_eq_up _ b rfl (by omega) hskips

/-- `BuildSkip` on every block makes every `pskip` correct. -/
theorem skipCorrect_of_skipsBuilt (hbuilt : t.SkipsBuilt) (b : B) : t.SkipCorrect b := by
  suffices h : ∀ n, ∀ c, t.nHeight c ≤ n → t.SkipCorrect c from h _ b le_rfl
  intro n
  induction n with
  | zero =>
    intro c hc
    cases hp : t.pprev c with
    | none => rw [SkipCorrect, hbuilt c, hp, Option.bind_none, Option.bind_none]
    | some p =>
      have := t.height_pprev c p hp
      omega
  | succ n ih =>
    intro c hc
    cases hp : t.pprev c with
    | none => rw [SkipCorrect, hbuilt c, hp, Option.bind_none, Option.bind_none]
    | some p =>
      have hpn := t.height_pprev c p hp
      have hlt := getSkipHeight_lt (show 0 < t.nHeight c by omega)
      rw [SkipCorrect, hbuilt c, hp, Option.bind_some, Option.bind_some,
        t.getAncestor_eq_up_of_skips (fun d hd => ih d (by omega)), if_neg (by omega),
        show t.nHeight c - getSkipHeight (t.nHeight c) =
          (t.nHeight p - getSkipHeight (t.nHeight c)) + 1 by omega,
        Forest.up_succ, hp, Option.bind_some]

/-- Once `BuildSkip` has run on every block, `GetAncestor` returns the
ancestor at the height asked for, and null above the block. -/
theorem getAncestor_eq_up (hbuilt : t.SkipsBuilt) (b : B) (height : Nat) :
    t.getAncestor b height =
      if t.nHeight b < height then none else Forest.up t.pprev b (t.nHeight b - height) :=
  t.getAncestor_eq_up_of_skips (fun c _ => t.skipCorrect_of_skipsBuilt hbuilt c) height

/-- Conversely, `pskip` pointers at the right ancestors are what `BuildSkip`
sets. -/
theorem skipsBuilt_of_skipCorrect (hskips : ∀ b, t.SkipCorrect b) : t.SkipsBuilt := by
  intro b
  rw [hskips b]
  cases hp : t.pprev b with
  | none => rfl
  | some p =>
    have hpn := t.height_pprev b p hp
    have hlt := getSkipHeight_lt (show 0 < t.nHeight b by omega)
    rw [Option.bind_some, Option.bind_some, t.getAncestor_eq_up_of_skips (fun c _ => hskips c),
      if_neg (by omega), show t.nHeight b - getSkipHeight (t.nHeight b) =
        (t.nHeight p - getSkipHeight (t.nHeight b)) + 1 by omega, Forest.up_succ, hp, Option.bind_some]

/-- The walk of `GetAncestor` only moves down, and moves at least once when
the height asked for is below the one it starts from. -/
theorem getAncestorWalk_height {height : Nat} (w : B) (hw : Nat) {a : B}
    (h : t.getAncestorWalk height w hw = some a) :
    t.nHeight a ≤ t.nHeight w ∧ (height < hw → t.nHeight a < t.nHeight w) := by
  induction w, hw using getAncestorWalk.induct t height with
  | case1 w hw hlt s hs ih =>
    rw [getAncestorWalk, if_pos hlt, hs] at h
    have hskip := t.height_pskip w s (Option.eq_some_of_filter_eq_some hs)
    have := ih h
    omega
  | case2 w hw hlt hs p hp ih =>
    rw [getAncestorWalk, if_pos hlt, hs, hp] at h
    have hprev := t.height_pprev w p hp
    have := ih h
    omega
  | case3 w hw hlt hs hp =>
    rw [getAncestorWalk, if_pos hlt, hs, hp] at h
    cases h
  | case4 w hw hle =>
    rw [getAncestorWalk, if_neg hle] at h
    cases h
    omega

theorem getAncestor_height_lt {b a : B} {height : Nat} (h : t.getAncestor b height = some a)
    (hlt : height < t.nHeight b) : t.nHeight a < t.nHeight b := by
  rw [getAncestor, if_neg (by omega)] at h
  exact (t.getAncestorWalk_height b _ h).2 hlt

/-- `GetAncestor` with an `int` height: a negative height gives null. -/
def getAncestorInt (b : B) (height : Int) : Option B :=
  if height < 0 then none else t.getAncestor b height.toNat

/-- One chain of blocks named by their heights, with the skip pointers
that `BuildSkip` sets. -/
def chain : BlockTree Nat where
  pprev n := if n = 0 then none else some (n - 1)
  pskip n := if n = 0 then none else some (getSkipHeight n)
  nHeight n := n
  height_pprev b p h := by
    split_ifs at h with h0
    cases h
    omega
  height_genesis b h := by
    split_ifs at h with h0
    exact h0
  height_pskip b s h := by
    split_ifs at h with h0
    cases h
    exact getSkipHeight_lt (Nat.pos_of_ne_zero h0)

theorem chain_up (k : Nat) : ∀ n, k ≤ n → Forest.up chain.pprev n k = some (n - k) := by
  induction k with
  | zero => simp
  | succ k ih =>
    intro n hk
    have hprev : chain.pprev n = some (n - 1) := if_neg (by omega)
    rw [Forest.up_succ, hprev, Option.bind_some, ih (n - 1) (by omega)]
    congr 1
    omega

theorem chain_skipsBuilt : chain.SkipsBuilt := by
  apply skipsBuilt_of_skipCorrect
  intro n
  unfold SkipCorrect
  by_cases h0 : n = 0
  · simp [chain, h0]
  · have hlt := getSkipHeight_lt (Nat.pos_of_ne_zero h0)
    have hprev : chain.pprev n = some (n - 1) := if_neg h0
    have hskip : chain.pskip n = some (getSkipHeight n) := if_neg h0
    rw [hprev, hskip, Option.bind_some]
    have hup := chain_up (n - getSkipHeight n) n (by omega)
    rw [show n - (n - getSkipHeight n) = getSkipHeight n by omega] at hup
    exact hup.symm

/-- `GetAncestor` against the walk along `pprev`. Once `BuildSkip` has
linked every block, `GetAncestor(h)` for `0 ≤ h ≤ nHeight` is the block
reached by following `pprev` exactly `nHeight - h` times, a walk that never
runs out of blocks, and it is null for every other `h`. The loop terminates
because `GetSkipHeight(n) < n` from `n = 1` on. -/
theorem getAncestor_eq_pprev_walk (hbuilt : t.SkipsBuilt) :
    (∀ (b : B) (height : Int), 0 ≤ height → height ≤ t.nHeight b →
      ∃ a, Forest.up t.pprev b (t.nHeight b - height.toNat) = some a ∧
        t.getAncestorInt b height = some a) ∧
    (∀ (b : B) (height : Int), height < 0 ∨ (t.nHeight b : Int) < height →
      t.getAncestorInt b height = none) ∧
    ∀ n : Nat, 1 ≤ n → getSkipHeight n < n := by
  refine ⟨?_, ?_, fun n hn => getSkipHeight_lt hn⟩
  · intro b height h0 hle
    obtain ⟨a, ha⟩ := t.up_isSome (show t.nHeight b - height.toNat ≤ t.nHeight b by omega)
    refine ⟨a, ha, ?_⟩
    rw [getAncestorInt, if_neg (by omega), t.getAncestor_eq_up hbuilt, if_neg (by omega)]
    exact ha
  · intro b height hout
    rw [getAncestorInt]
    split_ifs with hneg
    · rfl
    · rw [t.getAncestor_eq_up hbuilt, if_pos (by omega)]

theorem getAncestor_eq_pprev_walk_chain :
    (∀ (b : Nat) (height : Int), 0 ≤ height → height ≤ chain.nHeight b →
      ∃ a, Forest.up chain.pprev b (chain.nHeight b - height.toNat) = some a ∧
        chain.getAncestorInt b height = some a) ∧
    (∀ (b : Nat) (height : Int), height < 0 ∨ (chain.nHeight b : Int) < height →
      chain.getAncestorInt b height = none) ∧
    ∀ n : Nat, 1 ≤ n → getSkipHeight n < n :=
  getAncestor_eq_pprev_walk chain chain_skipsBuilt

/-- `nMedianTimeSpan`. -/
def nMedianTimeSpan : Nat := 11

/-- The loop of `GetMedianTimePast`: up to `i` more block times, each
stored in front of those already taken. -/
def medianTimeWalk (nTime : B → UInt32) : Nat → Option B → List Nat → List Nat
  | i + 1, some pindex, pmedian => medianTimeWalk nTime i (t.pprev pindex) ((nTime pindex).toNat :: pmedian)
  | _, _, pmedian => pmedian

/-- `GetMedianTimePast`: the median of the times of the block and its ten
predecessors, or of as many as there are. -/
def medianTimePast (nTime : B → UInt32) (b : B) : Nat :=
  let pmedian := (t.medianTimeWalk nTime nMedianTimeSpan (some b) []).mergeSort
  pmedian.getD (pmedian.length / 2) 0

theorem medianTimeWalk_forall (nTime : B → UInt32) {P : Nat → Prop} (hP : ∀ b, P (nTime b).toNat) :
    ∀ (i : Nat) (c : Option B) (pmedian : List Nat), (∀ x ∈ pmedian, P x) →
      ∀ x ∈ t.medianTimeWalk nTime i c pmedian, P x
  | 0, c, pmedian, h => by cases c <;> exact h
  | i + 1, none, pmedian, h => h
  | i + 1, some pindex, pmedian, h => by
    apply medianTimeWalk_forall nTime hP i
    intro x hx
    rcases List.mem_cons.mp hx with rfl | hx
    · exact hP pindex
    · exact h x hx

theorem mem_medianTimeWalk (nTime : B → UInt32) {x : Nat} :
    ∀ (i : Nat) (c : Option B) (pmedian : List Nat), x ∈ pmedian → x ∈ t.medianTimeWalk nTime i c pmedian
  | 0, c, pmedian, h => by cases c <;> exact h
  | i + 1, none, pmedian, h => h
  | i + 1, some pindex, pmedian, h => mem_medianTimeWalk nTime i _ _ (List.mem_cons_of_mem _ h)

/-- The median time past is the time of one of the blocks it reads: what holds
of every block time holds of it. -/
theorem medianTimePast_of_forall (nTime : B → UInt32) (P : Nat → Prop) (hP : ∀ b, P (nTime b).toNat)
    (b : B) : P (t.medianTimePast nTime b) := by
  have hall := t.medianTimeWalk_forall nTime hP nMedianTimeSpan (some b) [] (by simp)
  have hmem : (nTime b).toNat ∈ t.medianTimeWalk nTime nMedianTimeSpan (some b) [] :=
    t.mem_medianTimeWalk nTime 10 (t.pprev b) _ List.mem_cons_self
  have hlen : 0 < (t.medianTimeWalk nTime nMedianTimeSpan (some b) []).mergeSort.length := by
    rw [List.length_mergeSort]
    exact List.length_pos_of_mem hmem
  unfold medianTimePast
  rw [List.getD_eq_getElem _ _ (by omega)]
  exact hall _ (List.mem_mergeSort.mp (List.getElem_mem _))

/-- A median time past fits 32 bits. -/
theorem medianTimePast_lt (nTime : B → UInt32) (b : B) : t.medianTimePast nTime b < 2 ^ 32 :=
  t.medianTimePast_of_forall nTime (· < 2 ^ 32) (fun b => (nTime b).toNat_lt) b

end BlockTree

end Membercoin
