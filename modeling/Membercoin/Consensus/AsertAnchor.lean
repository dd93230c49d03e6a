import Membercoin.Chain.BlockIndex

/-!
# The ASERT anchor block (pow.cpp)

`GetASERTAnchorBlock` returns the first block of the chain of `pindex` on
which the November 2020 upgrade is enabled. It first tries the block cached
by its last call, and otherwise walks back along `pskip` and `pprev` while
the upgrade stays enabled, then caches what it found. `IsNov2020Enabled` is
the predicate `enabled` on blocks. The anchor is the lowest block of
`enabled` among the ancestors (`Forest.IsLowest`); when `enabled` is
inherited by children it is unique, so the fast and the slow path agree,
and the cache only ever holds anchors.
-/

namespace Membercoin

namespace BlockTree

variable {B : Type} (t : BlockTree B) (enabled : B → Bool)

/-- The slow path of `GetASERTAnchorBlock`: skip back along `pskip` to
enabled blocks, else step back to an enabled `pprev`, else stop. -/
def anchorWalk (anchor : B) : B :=
  match _hprev : t.pprev anchor with
  | none => anchor
  | some pprev =>
    match _hskip : (t.pskip anchor).filter enabled with
    | some pskip => anchorWalk pskip
    | none => if enabled pprev then anchorWalk pprev else anchor
termination_by t.nHeight anchor
decreasing_by
  · exact t.height_pskip anchor pskip (Option.filter_eq_some_iff.mp _hskip).1
  · have := t.height_pprev anchor pprev _hprev
    omega

/-- `GetASERTAnchorBlock`: the anchor of `pindex` and the new value of the
cache. -/
def getASERTAnchorBlock [DecidableEq B] (cachedAnchor : Option B) (pindex : B) : B × Option B :=
  match cachedAnchor.filter fun lastCached =>
      decide (t.getAncestor pindex (t.nHeight lastCached) = some lastCached) with
  | some lastCached => (lastCached, cachedAnchor)
  | none =>
    let anchor := t.anchorWalk enabled pindex
    (anchor, some anchor)

variable {t enabled}

theorem anchorWalk_of_genesis {anchor : B} (hprev : t.pprev anchor = none) :
    t.anchorWalk enabled anchor = anchor := by
  rw [anchorWalk]
  split
  · rfl
  · next heq => rw [hprev] at heq; cases heq

theorem anchorWalk_of_skip {anchor pprev pskip : B} (hprev : t.pprev anchor = some pprev)
    (hskip : (t.pskip anchor).filter enabled = some pskip) :
    t.anchorWalk enabled anchor = t.anchorWalk enabled pskip := by
  rw [anchorWalk]
  split
  · next heq => rw [hprev] at heq; cases heq
  · split
    · next heq => rw [hskip] at heq; cases heq; rfl
    · next heq => rw [hskip] at heq; cases heq

theorem anchorWalk_of_pprev {anchor pprev : B} (hprev : t.pprev anchor = some pprev)
    (hskip : (t.pskip anchor).filter enabled = none) :
    t.anchorWalk enabled anchor = if enabled pprev then t.anchorWalk enabled pprev else anchor := by
  rw [anchorWalk]
  split
  · next heq => rw [hprev] at heq; cases heq
  · next pprev' heq =>
    rw [hprev] at heq
    cases heq
    split
    · next heq => rw [hskip] at heq; cases heq
    · rfl

/-- The slow path ends at an ancestor that is enabled and whose parent is
not. -/
theorem anchorWalk_spec (hbuilt : t.SkipsBuilt) {anchor : B} (hen : enabled anchor = true) :
    Forest.IsAncestor t.pprev (t.anchorWalk enabled anchor) anchor ∧
      Forest.IsLowest t.pprev enabled (t.anchorWalk enabled anchor) := by
  induction anchor using anchorWalk.induct t enabled with
  | case1 anchor hprev =>
    rw [anchorWalk_of_genesis hprev]
    refine ⟨Forest.IsAncestor.refl anchor, hen, ?_⟩
    intro p hp
    rw [hprev] at hp
    cases hp
  | case2 anchor pprev hprev pskip hskip ih =>
    obtain ⟨hs, hens⟩ := Option.filter_eq_some_iff.mp hskip
    have hanc : Forest.IsAncestor t.pprev pskip anchor :=
      ⟨_, SkipCorrect.pskip t (t.skipCorrect_of_skipsBuilt hbuilt anchor) hs⟩
    obtain ⟨hwalk, hlowest⟩ := ih hens
    rw [anchorWalk_of_skip hprev hskip]
    exact ⟨hwalk.trans hanc, hlowest⟩
  | case3 anchor pprev hprev hskip henp ih =>
    obtain ⟨hwalk, hlowest⟩ := ih henp
    rw [anchorWalk_of_pprev hprev hskip, if_pos henp]
    exact ⟨hwalk.trans (Forest.IsAncestor.of_parent hprev), hlowest⟩
  | case4 anchor pprev hprev hskip henp =>
    rw [anchorWalk_of_pprev hprev hskip, if_neg henp]
    refine ⟨Forest.IsAncestor.refl anchor, hen, ?_⟩
    intro p hp
    rw [hprev] at hp
    cases hp
    simpa using henp

variable [DecidableEq B]

/-- Each path of `GetASERTAnchorBlock` returns an ancestor of `pindex` that
is enabled with its parent not, and leaves such a block in the cache. -/
theorem getASERTAnchorBlock_spec (hbuilt : t.SkipsBuilt) {cachedAnchor : Option B}
    (hcache : ∀ c, cachedAnchor = some c → Forest.IsLowest t.pprev enabled c) {pindex : B}
    (hen : enabled pindex = true) :
    Forest.IsAncestor t.pprev (t.getASERTAnchorBlock enabled cachedAnchor pindex).1 pindex ∧
      Forest.IsLowest t.pprev enabled (t.getASERTAnchorBlock enabled cachedAnchor pindex).1 ∧
      ∀ c, (t.getASERTAnchorBlock enabled cachedAnchor pindex).2 = some c →
        Forest.IsLowest t.pprev enabled c := by
  unfold getASERTAnchorBlock
  split
  · next lastCached hfilter =>
    obtain ⟨hcached, hfound⟩ := Option.filter_eq_some_iff.mp hfilter
    rw [decide_eq_true_iff, t.getAncestor_eq_up hbuilt] at hfound
    split_ifs at hfound
    have hlowest := hcache lastCached hcached
    refine ⟨⟨_, hfound⟩, hlowest, ?_⟩
    intro c hc
    rw [hcached, Option.some.injEq] at hc
    rw [← hc]
    exact hlowest
  · obtain ⟨hwalk, hlowest⟩ := anchorWalk_spec hbuilt hen
    refine ⟨hwalk, hlowest, ?_⟩
    intro c hc
    rw [Option.some.injEq] at hc
    rw [← hc]
    exact hlowest

/-- `GetASERTAnchorBlock` on an enabled block returns its unique ancestor
that is enabled with a parent that is not, whatever anchor the cache held,
so the cached path agrees with the slow one; and the cache keeps holding an
anchor. -/
theorem getASERTAnchorBlock_returns_anchor (hbuilt : t.SkipsBuilt)
    (hmono : ∀ b p, t.pprev b = some p → enabled p = true → enabled b = true)
    {cachedAnchor : Option B} (hcache : ∀ c, cachedAnchor = some c → Forest.IsLowest t.pprev enabled c)
    {pindex : B} (hen : enabled pindex = true) :
    (Forest.IsAncestor t.pprev (t.getASERTAnchorBlock enabled cachedAnchor pindex).1 pindex ∧
      Forest.IsLowest t.pprev enabled (t.getASERTAnchorBlock enabled cachedAnchor pindex).1 ∧
      ∀ a, Forest.IsAncestor t.pprev a pindex → Forest.IsLowest t.pprev enabled a →
        a = (t.getASERTAnchorBlock enabled cachedAnchor pindex).1) ∧
      (t.getASERTAnchorBlock enabled cachedAnchor pindex).1 =
        (t.getASERTAnchorBlock enabled none pindex).1 ∧
      ∀ c, (t.getASERTAnchorBlock enabled cachedAnchor pindex).2 = some c →
        Forest.IsLowest t.pprev enabled c := by
  obtain ⟨hanc, hlowest, hnext⟩ := getASERTAnchorBlock_spec hbuilt hcache hen
  obtain ⟨hanc₀, hlowest₀, -⟩ :=
    getASERTAnchorBlock_spec hbuilt (fun c (hc : (none : Option B) = some c) => by cases hc) hen
  have hunique : ∀ a, Forest.IsAncestor t.pprev a pindex → Forest.IsLowest t.pprev enabled a →
      a = (t.getASERTAnchorBlock enabled cachedAnchor pindex).1 := by
    intro a ha hla
    exact hla.unique hmono t.height_pprev t.height_genesis hlowest ha hanc
  exact ⟨⟨hanc, hlowest, hunique⟩, (hunique _ hanc₀ hlowest₀).symm, hnext⟩

theorem getASERTAnchorBlock_returns_anchor_chain :
    chain.SkipsBuilt ∧
      (∀ b p, chain.pprev b = some p → decide (2 ≤ p) = true → decide (2 ≤ b) = true) ∧
      (∀ c, some 2 = some c → Forest.IsLowest chain.pprev (fun n => decide (2 ≤ n)) c) ∧
      decide (2 ≤ 5) = true ∧
      ((Forest.IsAncestor chain.pprev
            (chain.getASERTAnchorBlock (fun n => decide (2 ≤ n)) (some 2) 5).1 5 ∧
          Forest.IsLowest chain.pprev (fun n => decide (2 ≤ n))
            (chain.getASERTAnchorBlock (fun n => decide (2 ≤ n)) (some 2) 5).1 ∧
          ∀ a, Forest.IsAncestor chain.pprev a 5 →
            Forest.IsLowest chain.pprev (fun n => decide (2 ≤ n)) a →
            a = (chain.getASERTAnchorBlock (fun n => decide (2 ≤ n)) (some 2) 5).1) ∧
        (chain.getASERTAnchorBlock (fun n => decide (2 ≤ n)) (some 2) 5).1 =
          (chain.getASERTAnchorBlock (fun n => decide (2 ≤ n)) none 5).1 ∧
        ∀ c, (chain.getASERTAnchorBlock (fun n => decide (2 ≤ n)) (some 2) 5).2 = some c →
          Forest.IsLowest chain.pprev (fun n => decide (2 ≤ n)) c) := by
  have hmono : ∀ b p, chain.pprev b = some p → decide (2 ≤ p) = true → decide (2 ≤ b) = true := by
    intro b p hp hen
    have := chain.height_pprev b p hp
    simp only [decide_eq_true_eq] at hen ⊢
    exact Nat.le_of_lt_succ (by simp only [chain] at this; omega)
  have hcache : ∀ c, some 2 = some c → Forest.IsLowest chain.pprev (fun n => decide (2 ≤ n)) c := by
    intro c hc
    cases hc
    refine ⟨rfl, ?_⟩
    intro p hp
    cases hp
    rfl
  exact ⟨chain_skipsBuilt, hmono, hcache, rfl,
    getASERTAnchorBlock_returns_anchor chain_skipsBuilt hmono hcache rfl⟩

end BlockTree

end Membercoin
