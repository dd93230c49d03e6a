import Membercoin.Consensus.Asert
import Membercoin.Consensus.TxVerify

/-!
# BIP135 deployment states (versionbits.cpp)

`GetStateFor` gives the state of a deployment for the block after
`pindexPrev`. It walks back in steps of one period to a block whose state is
cached as `DEFINED`, or whose median time past is before the start time, and
then replays the state machine forward over the period boundaries it passed,
caching every state it computes. Only `DEFINED` entries stop the walk back, so
the height and time of a lock-in are seen again on the way forward.

The specification, `bip135State`, folds one abstract step over all the
period boundaries below the block. `getStateFor_eq_bip135State` shows that a
call returns it and keeps the cache correct (`CacheCorrect`), whatever earlier
calls have left in it, so that a whole run of calls from an empty cache
answers every call with the specified state. This needs the start time to be
at most the timeout: otherwise a period whose median time past lies between
the two is `FAILED` by the specification, while the shortcut on the start
time caches and returns `DEFINED`.
-/

namespace Membercoin

/-- `ThresholdState`. -/
inductive ThresholdState where
  | defined | started | lockedIn | active | failed
  deriving DecidableEq, Repr

/-- `VERSIONBITS_TOP_BITS`. -/
def versionBitsTopBits : UInt32 := 0x20000000

/-- `VERSIONBITS_TOP_MASK`. -/
def versionBitsTopMask : UInt32 := 0xE0000000

/-- The fields of `Consensus::ForkDeployment`. The bit is a valid shift of a
`uint32_t`, and the two lock-in minimums keep the ranges of their C++ types. -/
structure ForkDeployment where
  bit : Nat
  nStartTime : Int
  nTimeout : Int
  windowsize : Int
  threshold : Int
  minlockedblocks : Int
  minlockedtime : Int
  bit_lt : bit < 32
  minlockedblocks_isInt32 : -2 ^ 31 ≤ minlockedblocks ∧ minlockedblocks < 2 ^ 31
  minlockedtime_isInt64 : IsInt64 minlockedtime

namespace ForkDeployment

variable (d : ForkDeployment)

/-- `VersionBitsConditionChecker::Mask`. -/
def mask : UInt32 := (1 : UInt32) <<< d.bit.toUInt32

/-- `VersionBitsConditionChecker::Condition` on a block's version, read as its
32 bits: the top bits select versionbits and the deployment's bit is set. -/
def condition (nVersion : UInt32) : Bool :=
  nVersion &&& versionBitsTopMask == versionBitsTopBits && nVersion &&& d.mask != 0

end ForkDeployment

/-- `ThresholdConditionCache`: states by block pointer, null included. -/
abbrev ThresholdConditionCache (B : Type) := Option B → Option ThresholdState

section GetStateFor

variable {B : Type} [DecidableEq B] (t : BlockTree B) (nTime nVersion : B → UInt32) (d : ForkDeployment)

/-- `backAtDefined`: the block's state is cached as `DEFINED`. -/
def backAtDefined (cache : ThresholdConditionCache B) (pindex : Option B) : Bool :=
  cache pindex == some .defined

/-- The counting loop of `GetStateFor`: how many of `i` blocks back from
`pindexCount` signal; a null block is dereferenced. -/
def countCondition : Nat → Option B → Option Nat
  | 0, _ => some 0
  | _ + 1, none => none
  | i + 1, some pindexCount =>
    (countCondition i (t.pprev pindexCount)).map fun count =>
      if d.condition (nVersion pindexCount) then count + 1 else count

/-- The `switch` of the forward walk of `GetStateFor` at the period boundary
`pindexPrev`, with the lock-in height and time kept in locals. Signed
overflow of a lock-in sum is undefined. -/
def getStateForStep (pindexPrev : B) (state : ThresholdState) (lockin : Int × Int) :
    Option (ThresholdState × Int × Int) :=
  let mtp : Int := t.medianTimePast nTime pindexPrev
  match state with
  | .defined =>
    some (if mtp ≥ d.nTimeout then .failed else if mtp ≥ d.nStartTime then .started else .defined, lockin)
  | .started =>
    if mtp ≥ d.nTimeout then some (.failed, lockin)
    else (countCondition t nVersion d d.windowsize.toNat (some pindexPrev)).map fun (count : Nat) =>
      if (count : Int) ≥ d.threshold then (.lockedIn, t.nHeight pindexPrev, mtp) else (.started, lockin)
  | .lockedIn => do
    let lockedTime ← checkedInt64 (lockin.2 + d.minlockedtime)
    if mtp ≥ lockedTime then do
      let lockedBlock ← checkedInt32 (lockin.1 + d.minlockedblocks)
      pure (if (t.nHeight pindexPrev : Int) ≥ lockedBlock then .active else .lockedIn, lockin)
    else pure (.lockedIn, lockin)
  | .failed => some (.failed, lockin)
  | .active => some (.active, lockin)

omit [DecidableEq B] in
theorem getAncestorInt_sub_height {b a : B} (hP : d.windowsize ≠ 0)
    (h : t.getAncestorInt b (t.nHeight b - d.windowsize) = some a) : t.nHeight a < t.nHeight b := by
  unfold BlockTree.getAncestorInt at h
  split_ifs at h with hneg
  by_cases hpos : 0 < d.windowsize
  · exact t.getAncestor_height_lt h (by omega)
  · rw [BlockTree.getAncestor, if_pos (by omega)] at h
    cases h

/-- The walk back of `GetStateFor`, pushing the period boundaries it passes
onto `vToCompute`; it stops at a cached `DEFINED`, at null, or before the
start time, caching `DEFINED` in the last two cases. -/
def getStateForWalkBack (hP : d.windowsize ≠ 0) (cache : ThresholdConditionCache B)
    (pindexPrev : Option B) (vToCompute : List B) : Option B × List B × ThresholdConditionCache B :=
  if backAtDefined cache pindexPrev then (pindexPrev, vToCompute, cache)
  else
    match pindexPrev with
    | none => (none, vToCompute, Function.update cache none (some .defined))
    | some b =>
      if (t.medianTimePast nTime b : Int) < d.nStartTime then
        (some b, vToCompute, Function.update cache (some b) (some .defined))
      else
        getStateForWalkBack hP cache (t.getAncestorInt b (t.nHeight b - d.windowsize)) (b :: vToCompute)
termination_by pindexPrev.elim 0 fun b => t.nHeight b + 1
decreasing_by
  cases ha : t.getAncestorInt b (t.nHeight b - d.windowsize) with
  | none => simp
  | some a =>
    have := getAncestorInt_sub_height t d hP ha
    simp only [Option.elim_some]
    omega

/-- The walk forward of `GetStateFor` over `vToCompute`, oldest first,
caching each state. -/
def getStateForWalkForward : ThresholdConditionCache B → ThresholdState → Int × Int → List B →
    Option (ThresholdState × ThresholdConditionCache B)
  | cache, state, _, [] => some (state, cache)
  | cache, state, lockin, pindexPrev :: vToCompute => do
    let (stateNext, lockin) ← getStateForStep t nTime nVersion d pindexPrev state lockin
    getStateForWalkForward (Function.update cache (some pindexPrev) (some stateNext)) stateNext lockin vToCompute

/-- `GetStateFor`: the state for the block after `pindexPrev`, and the cache
the call leaves. The two assertions after the walk back fail as `none`. -/
def getStateFor (cache : ThresholdConditionCache B) (pindexPrev : Option B) :
    Option (ThresholdState × ThresholdConditionCache B) :=
  if hP : d.windowsize = 0 then some (.defined, cache)
  else
    -- the state of a period is that of the boundary block before it
    let pindexPrev := pindexPrev.bind fun b =>
      t.getAncestorInt b (t.nHeight b - Int.tmod (t.nHeight b + 1) d.windowsize)
    let (pindexPrev, vToCompute, cache) := getStateForWalkBack t nTime d hP cache pindexPrev []
    if cache pindexPrev = some .defined then
      getStateForWalkForward t nTime nVersion d cache .defined (0, 0) vToCompute
    else none

/-- Calls of `GetStateFor` one after another on one cache, as the node makes
them for the blocks it connects and the templates it builds. -/
def getStateForCalls : ThresholdConditionCache B → List (Option B) →
    Option (List ThresholdState × ThresholdConditionCache B)
  | cache, [] => some ([], cache)
  | cache, pindexPrev :: queries => do
    let (state, cache) ← getStateFor t nTime nVersion d cache pindexPrev
    let (states, cache) ← getStateForCalls cache queries
    pure (state :: states, cache)

end GetStateFor

/-! ## The specified state machine -/

section Bip135

variable {B : Type} (t : BlockTree B) (nTime nVersion : B → UInt32) (d : ForkDeployment)

/-- The ancestor of `b` at height `h`, by walking `pprev`. -/
def BlockTree.ancestorAt (b : B) (h : Nat) : Option B :=
  if h ≤ t.nHeight b then Forest.up t.pprev b (t.nHeight b - h) else none

/-- The ancestors of `b` at the first `k` period boundaries, the heights
`P - 1`, `2 P - 1`, ..., oldest first. -/
def boundariesBelow (P : Nat) (b : B) : Nat → List B
  | 0 => []
  | k + 1 => boundariesBelow P b k ++ (t.ancestorAt b ((k + 1) * P - 1)).toList

/-- The period boundaries at or below a block, null having none. -/
def periodBoundaries (P : Nat) : Option B → List B
  | none => []
  | some b => boundariesBelow t P b ((t.nHeight b + 1) / P)

/-- The boundary one period below `b`, null below the first period. -/
def previousPeriod (P : Nat) (b : B) : Option B :=
  if t.nHeight b < P then none else Forest.up t.pprev b P

/-- How many of the `P` blocks ending at `b` signal. -/
def signalCount (P : Nat) (b : B) : Nat :=
  ((List.range P).filterMap (Forest.up t.pprev b)).countP fun a => d.condition (nVersion a)

/-- BIP135 at the period boundary `b`, on the state and the height and time of
the lock-in. -/
def bip135Step (b : B) (σ : ThresholdState × Int × Int) : ThresholdState × Int × Int :=
  let mtp : Int := t.medianTimePast nTime b
  match σ.1 with
  | .defined =>
    (if d.nTimeout ≤ mtp then .failed else if d.nStartTime ≤ mtp then .started else .defined, σ.2)
  | .started =>
    if d.nTimeout ≤ mtp then (.failed, σ.2)
    else if d.threshold ≤ signalCount t nVersion d d.windowsize.toNat b then (.lockedIn, t.nHeight b, mtp)
    else (.started, σ.2)
  | .lockedIn =>
    if σ.2.2 + d.minlockedtime ≤ mtp ∧ σ.2.1 + d.minlockedblocks ≤ t.nHeight b then (.active, σ.2)
    else (.lockedIn, σ.2)
  | .failed => (.failed, σ.2)
  | .active => (.active, σ.2)

/-- The steps over a list of boundaries, oldest first. -/
def bip135Run (σ : ThresholdState × Int × Int) (L : List B) : ThresholdState × Int × Int :=
  L.foldl (fun σ b => bip135Step t nTime nVersion d b σ) σ

/-- The state BIP135 specifies for the block after `pindexPrev`: the steps over
its period boundaries from `DEFINED`. -/
def bip135State (pindexPrev : Option B) : ThresholdState :=
  (bip135Run t nTime nVersion d (.defined, 0, 0) (periodBoundaries t d.windowsize.toNat pindexPrev)).1

/-- Every entry of the cache is the specified state of its block. -/
def CacheCorrect (cache : ThresholdConditionCache B) : Prop :=
  ∀ k s, cache k = some s → bip135State t nTime nVersion d k = s

/-! ### Period boundaries -/

variable {t}

theorem ancestorAt_self (b : B) : t.ancestorAt b (t.nHeight b) = some b := by
  simp [BlockTree.ancestorAt]

/-- An ancestor sees the blocks below it at the same heights. -/
theorem ancestorAt_of_up {b c : B} {r h : Nat} (hup : Forest.up t.pprev b r = some c)
    (hh : h ≤ t.nHeight c) : t.ancestorAt c h = t.ancestorAt b h := by
  have hc := t.up_height hup
  unfold BlockTree.ancestorAt
  rw [if_pos hh, if_pos (by omega), show t.nHeight b - h = r + (t.nHeight c - h) by omega,
    Forest.up_add, hup, Option.bind_some]

theorem boundariesBelow_congr {P : Nat} {b c : B} :
    ∀ k, (∀ j < k, t.ancestorAt c ((j + 1) * P - 1) = t.ancestorAt b ((j + 1) * P - 1)) →
      boundariesBelow t P c k = boundariesBelow t P b k
  | 0, _ => rfl
  | k + 1, h => by
    rw [boundariesBelow, boundariesBelow, boundariesBelow_congr k (fun j hj => h j (by omega)),
      h k (by omega)]

/-- An ancestor has the same first `k` boundaries when they lie below it. -/
theorem boundariesBelow_of_up {P : Nat} {b c : B} {r k : Nat} (hup : Forest.up t.pprev b r = some c)
    (hk : k * P ≤ t.nHeight c + 1) : boundariesBelow t P c k = boundariesBelow t P b k := by
  apply boundariesBelow_congr k
  intro j hj
  have hle : (j + 1) * P ≤ k * P := Nat.mul_le_mul_right P (by omega)
  exact ancestorAt_of_up hup (by omega)

/-- A boundary is the last of its boundaries, after those of the period below. -/
theorem periodBoundaries_of_boundary {P : Nat} (hP : 0 < P) {b : B} (hb : (t.nHeight b + 1) % P = 0) :
    periodBoundaries t P (some b) = periodBoundaries t P (previousPeriod t P b) ++ [b] := by
  obtain ⟨k, hk⟩ : ∃ k, t.nHeight b + 1 = (k + 1) * P := by
    have hdiv := Nat.div_add_mod (t.nHeight b + 1) P
    have hpos : 0 < (t.nHeight b + 1) / P := by
      by_contra hzero
      rw [Nat.eq_zero_of_not_pos hzero] at hdiv
      omega
    refine ⟨(t.nHeight b + 1) / P - 1, ?_⟩
    rw [Nat.sub_add_cancel hpos]
    rw [hb] at hdiv
    linarith
  have hsucc : (k + 1) * P = k * P + P := Nat.succ_mul k P
  have hdivk : (t.nHeight b + 1) / P = k + 1 := by rw [hk, Nat.mul_div_cancel _ hP]
  rw [periodBoundaries, hdivk, boundariesBelow, show (k + 1) * P - 1 = t.nHeight b by omega,
    ancestorAt_self, Option.toList_some]
  congr 1
  unfold previousPeriod
  by_cases hlt : t.nHeight b < P
  · have hk0 : k = 0 := by
      by_contra hne
      have : P ≤ k * P := Nat.le_mul_of_pos_left P (Nat.pos_of_ne_zero hne)
      omega
    rw [if_pos hlt, hk0]
    rfl
  · obtain ⟨c, hc⟩ := t.up_isSome (show P ≤ t.nHeight b by omega)
    have hhc := t.up_height hc
    rw [if_neg hlt, hc, periodBoundaries, show (t.nHeight c + 1) / P = k by
      rw [show t.nHeight c + 1 = k * P by omega, Nat.mul_div_cancel _ hP]]
    exact (boundariesBelow_of_up hc (by omega)).symm

/-- The block before a period has the boundaries of any block in the period. -/
theorem periodBoundaries_periodStart {P : Nat} (hP : 0 < P) (b : B) :
    periodBoundaries t P (if t.nHeight b + 1 < P then none
      else Forest.up t.pprev b ((t.nHeight b + 1) % P)) = periodBoundaries t P (some b) := by
  by_cases hlt : t.nHeight b + 1 < P
  · rw [if_pos hlt, periodBoundaries, periodBoundaries, Nat.div_eq_of_lt hlt]
    rfl
  · have hmod := Nat.mod_lt (t.nHeight b + 1) hP
    obtain ⟨c, hc⟩ := t.up_isSome (show (t.nHeight b + 1) % P ≤ t.nHeight b by omega)
    have hhc := t.up_height hc
    have hdiv := Nat.div_add_mod' (t.nHeight b + 1) P
    have hcdiv : (t.nHeight c + 1) / P = (t.nHeight b + 1) / P := by
      rw [show t.nHeight c + 1 = (t.nHeight b + 1) / P * P by omega, Nat.mul_div_cancel _ hP]
    rw [if_neg hlt, hc, periodBoundaries, periodBoundaries, hcdiv]
    exact boundariesBelow_of_up hc (by omega)

theorem mem_boundariesBelow {P : Nat} {b x : B} :
    ∀ {k}, x ∈ boundariesBelow t P b k → ∃ j < k, t.ancestorAt b ((j + 1) * P - 1) = some x
  | 0, h => absurd h List.not_mem_nil
  | k + 1, h => by
    rcases List.mem_append.mp h with h | h
    · obtain ⟨j, hj, hx⟩ := mem_boundariesBelow h
      exact ⟨j, by omega, hx⟩
    · exact ⟨k, by omega, Option.mem_toList.mp h⟩

/-- A period boundary of a block is an ancestor of it, at a height one below a
multiple of the period. -/
theorem mem_periodBoundaries {P : Nat} (hP : 0 < P) {x : B} {c : Option B}
    (h : x ∈ periodBoundaries t P c) :
    ∃ b, c = some b ∧ P ≤ t.nHeight x + 1 ∧ (t.nHeight x + 1) % P = 0 ∧
      Forest.IsAncestor t.pprev x b := by
  cases c with
  | none => exact absurd h List.not_mem_nil
  | some b =>
    obtain ⟨j, -, hx⟩ := mem_boundariesBelow h
    unfold BlockTree.ancestorAt at hx
    split_ifs at hx with hle
    have hhx := t.up_height hx
    have hmul : P ≤ (j + 1) * P := Nat.le_mul_of_pos_left P (by omega)
    refine ⟨b, rfl, by omega, ?_, _, hx⟩
    rw [show t.nHeight x + 1 = (j + 1) * P by omega, Nat.mul_mod_left]

/-! ### The steps -/

variable {nTime nVersion d}

@[simp] theorem bip135Run_nil (σ : ThresholdState × Int × Int) : bip135Run t nTime nVersion d σ [] = σ := rfl

@[simp] theorem bip135Run_cons (σ : ThresholdState × Int × Int) (b : B) (L : List B) :
    bip135Run t nTime nVersion d σ (b :: L) = bip135Run t nTime nVersion d (bip135Step t nTime nVersion d b σ) L :=
  rfl

theorem bip135Run_append (σ : ThresholdState × Int × Int) (L L' : List B) :
    bip135Run t nTime nVersion d σ (L ++ L') = bip135Run t nTime nVersion d (bip135Run t nTime nVersion d σ L) L' :=
  List.foldl_append

/-- No step goes back to `DEFINED`. -/
theorem bip135Step_ne_defined (b : B) {σ : ThresholdState × Int × Int} (h : σ.1 ≠ .defined) :
    (bip135Step t nTime nVersion d b σ).1 ≠ .defined := by
  obtain ⟨s, lockin⟩ := σ
  cases s with
  | defined => exact absurd rfl h
  | started =>
    simp only [bip135Step]
    split_ifs <;> simp
  | lockedIn =>
    simp only [bip135Step]
    split_ifs <;> simp
  | failed | active => simp [bip135Step]

theorem bip135Run_ne_defined :
    ∀ (L : List B) {σ : ThresholdState × Int × Int}, σ.1 ≠ .defined →
      (bip135Run t nTime nVersion d σ L).1 ≠ .defined
  | [], _, h => h
  | b :: L, _, h => bip135Run_ne_defined L (bip135Step_ne_defined b h)

/-- A run that ends in `DEFINED` stayed there, with the lock-in untouched. -/
theorem bip135Run_of_defined :
    ∀ (L : List B) (lockin : Int × Int), (bip135Run t nTime nVersion d (.defined, lockin) L).1 = .defined →
      bip135Run t nTime nVersion d (.defined, lockin) L = (.defined, lockin)
  | [], _, _ => rfl
  | b :: L, lockin, h => by
    rw [bip135Run_cons] at h ⊢
    have hstep : bip135Step t nTime nVersion d b (.defined, lockin) =
        (if d.nTimeout ≤ (t.medianTimePast nTime b : Int) then .failed
          else if d.nStartTime ≤ (t.medianTimePast nTime b : Int) then .started else .defined, lockin) := rfl
    rw [hstep] at h ⊢
    split_ifs at h ⊢ with htimeout hstart
    · exact absurd h (bip135Run_ne_defined L (by simp))
    · exact absurd h (bip135Run_ne_defined L (by simp))
    · exact bip135Run_of_defined L lockin h

/-- Before the start time nothing happens, when the start is not after the
timeout. -/
theorem bip135Run_before_start (hstart : d.nStartTime ≤ d.nTimeout) :
    ∀ (L : List B) (lockin : Int × Int), (∀ c ∈ L, (t.medianTimePast nTime c : Int) < d.nStartTime) →
      bip135Run t nTime nVersion d (.defined, lockin) L = (.defined, lockin)
  | [], _, _ => rfl
  | b :: L, lockin, h => by
    have hb := h b List.mem_cons_self
    have hstep : bip135Step t nTime nVersion d b (.defined, lockin) = (.defined, lockin) := by
      simp only [bip135Step, if_neg (show ¬d.nTimeout ≤ (t.medianTimePast nTime b : Int) by omega),
        if_neg (show ¬d.nStartTime ≤ (t.medianTimePast nTime b : Int) by omega)]
    rw [bip135Run_cons, hstep]
    exact bip135Run_before_start hstart L lockin fun c hc => h c (List.mem_cons_of_mem b hc)

/-- The lock-in height is at most `H` and the lock-in time a median time past. -/
def LockinWithin (H : Nat) (σ : ThresholdState × Int × Int) : Prop :=
  0 ≤ σ.2.1 ∧ σ.2.1 ≤ H ∧ 0 ≤ σ.2.2 ∧ σ.2.2 < 2 ^ 32

theorem bip135Step_lockinWithin {H : Nat} {b : B} (hb : t.nHeight b ≤ H) {σ : ThresholdState × Int × Int}
    (h : LockinWithin H σ) : LockinWithin H (bip135Step t nTime nVersion d b σ) := by
  have hmtp := t.medianTimePast_lt nTime b
  obtain ⟨s, lockin⟩ := σ
  cases s with
  | started =>
    simp only [bip135Step]
    split_ifs
    · exact h
    · simp only [LockinWithin]
      omega
    · exact h
  | lockedIn =>
    simp only [bip135Step]
    split_ifs <;> exact h
  | defined | failed | active => exact h

theorem bip135Run_lockinWithin {H : Nat} :
    ∀ (L : List B) {σ : ThresholdState × Int × Int}, (∀ c ∈ L, t.nHeight c ≤ H) → LockinWithin H σ →
      LockinWithin H (bip135Run t nTime nVersion d σ L)
  | [], _, _, h => h
  | b :: L, _, hL, h =>
    bip135Run_lockinWithin L (fun c hc => hL c (List.mem_cons_of_mem b hc))
      (bip135Step_lockinWithin (hL b List.mem_cons_self) h)

end Bip135

/-! ## The code's step is the specified step -/

section Step

variable {B : Type} {t : BlockTree B} {nTime nVersion : B → UInt32} {d : ForkDeployment}

/-- The counting loop counts the signalling blocks when there are enough of them. -/
theorem countCondition_eq :
    ∀ (n : Nat) (b : B), n ≤ t.nHeight b + 1 →
      countCondition t nVersion d n (some b) = some (signalCount t nVersion d n b)
  | 0, _, _ => rfl
  | n + 1, b, hn => by
    cases hp : t.pprev b with
    | none =>
      have hn0 : n = 0 := by have := t.height_genesis b hp; omega
      subst hn0
      simp [countCondition, signalCount]
    | some p =>
      have hpn := t.height_pprev b p hp
      have hup : ∀ i, Forest.up t.pprev b (i + 1) = Forest.up t.pprev p i := fun i => by
        rw [Forest.up_succ, hp, Option.bind_some]
      rw [countCondition, hp, countCondition_eq n p (by omega)]
      simp [signalCount, List.range_succ_eq_map, List.filterMap_map, hup, List.countP_cons]
      split_ifs <;> rfl

theorem checkedInt64_eq {v : Int} (h : IsInt64 v) : checkedInt64 v = some v := if_pos h

/-- With the lock-in sums in range and a full period below the boundary, the
`switch` of `GetStateFor` is the specified step. -/
theorem getStateForStep_eq {H : Nat} {b : B} (hP : d.windowsize.toNat ≤ t.nHeight b + 1)
    (htime : d.minlockedtime ≤ int64Max - 2 ^ 32) (hblocks : H + d.minlockedblocks < 2 ^ 31)
    {σ : ThresholdState × Int × Int} (hσ : LockinWithin H σ) :
    getStateForStep t nTime nVersion d b σ.1 σ.2 = some (bip135Step t nTime nVersion d b σ) := by
  obtain ⟨s, lockin⟩ := σ
  cases s with
  | started =>
    simp only [getStateForStep, bip135Step, countCondition_eq _ b hP, Option.map_some]
    split_ifs <;> rfl
  | lockedIn =>
    obtain ⟨hblock₀, hblock₁, htime₀, htime₁⟩ :
      0 ≤ lockin.1 ∧ lockin.1 ≤ H ∧ 0 ≤ lockin.2 ∧ lockin.2 < 2 ^ 32 := hσ
    have hrange := d.minlockedtime_isInt64
    have hge := d.minlockedblocks_isInt32.1
    unfold IsInt64 int64Min int64Max at hrange
    unfold int64Max at htime
    have hsumTime : checkedInt64 (lockin.2 + d.minlockedtime) = some (lockin.2 + d.minlockedtime) :=
      checkedInt64_eq ⟨by unfold int64Min; omega, by unfold int64Max; omega⟩
    have hsumBlock : checkedInt32 (lockin.1 + d.minlockedblocks) = some (lockin.1 + d.minlockedblocks) :=
      checkedInt32_eq (by omega) (by omega)
    simp only [getStateForStep, bip135Step, hsumTime, hsumBlock, Option.bind_eq_bind, Option.bind_some]
    split_ifs <;> first | rfl | omega
  | defined | failed | active => rfl

end Step

/-! ## The walks of `GetStateFor` -/

section Walks

variable {B : Type} [DecidableEq B] {t : BlockTree B} {nTime nVersion : B → UInt32} {d : ForkDeployment}

theorem CacheCorrect.update {cache : ThresholdConditionCache B} (hcache : CacheCorrect t nTime nVersion d cache)
    {k : Option B} {s : ThresholdState} (hk : bip135State t nTime nVersion d k = s) :
    CacheCorrect t nTime nVersion d (Function.update cache k (some s)) := by
  intro k' s' h
  by_cases hkk : k' = k
  · subst hkk
    rw [Function.update_self, Option.some.injEq] at h
    rw [← h, hk]
  · rw [Function.update_of_ne hkk] at h
    exact hcache k' s' h

/-- The walk back so far: `v` holds the boundaries above `c` up to `B0`, oldest
first, each preceded by the boundaries below it; `c` is a boundary. -/
def WalkBackInv (t : BlockTree B) (P : Nat) (B0 c : Option B) (v : List B) : Prop :=
  periodBoundaries t P B0 = periodBoundaries t P c ++ v ∧
    (∀ V₁ x V₂, v = V₁ ++ x :: V₂ → periodBoundaries t P (some x) = periodBoundaries t P c ++ V₁ ++ [x]) ∧
    ∀ b, c = some b → (t.nHeight b + 1) % P = 0


omit [DecidableEq B] in
/-- One step back keeps the invariant: a boundary's boundaries are those of
the period below it, then itself. -/
theorem WalkBackInv.previousPeriod {P : Nat} (hP : 0 < P) {B0 : Option B} {b : B} {v : List B}
    (hinv : WalkBackInv t P B0 (some b) v) : WalkBackInv t P B0 (previousPeriod t P b) (b :: v) := by
  obtain ⟨hsplit, hchain, hbd⟩ := hinv
  have hb := hbd b rfl
  have hsnoc := periodBoundaries_of_boundary hP hb
  refine ⟨?_, ?_, ?_⟩
  · rw [hsplit, hsnoc, List.append_assoc, List.singleton_append]
  · intro V₁ x V₂ h
    cases V₁ with
    | nil =>
      obtain ⟨rfl, -⟩ := List.cons.inj h
      simpa using hsnoc
    | cons y V₁ =>
      simp only [List.cons_append, List.cons.injEq] at h
      obtain ⟨rfl, h⟩ := h
      rw [hchain V₁ x V₂ h, hsnoc]
      simp
  · intro c hc
    unfold Membercoin.previousPeriod at hc
    split_ifs at hc with hlt
    have hc' := t.up_height hc
    rw [← Nat.add_mod_right, show t.nHeight c + 1 + P = t.nHeight b + 1 by omega]
    exact hb


/-- The walk forward from the state after the boundaries `A` steps through
`v` as the specification does and caches, for each boundary, its specified
state. -/
theorem getStateForWalkForward_spec {H : Nat} (htime : d.minlockedtime ≤ int64Max - 2 ^ 32)
    (hblocks : H + d.minlockedblocks < 2 ^ 31) :
    ∀ (v A : List B) (cache : ThresholdConditionCache B) (σ : ThresholdState × Int × Int),
      bip135Run t nTime nVersion d (.defined, 0, 0) A = σ → CacheCorrect t nTime nVersion d cache →
      (∀ V₁ x V₂, v = V₁ ++ x :: V₂ → periodBoundaries t d.windowsize.toNat (some x) = A ++ V₁ ++ [x]) →
      (∀ x ∈ v, d.windowsize.toNat ≤ t.nHeight x + 1 ∧ t.nHeight x ≤ H) → LockinWithin H σ →
      ∃ cache', getStateForWalkForward t nTime nVersion d cache σ.1 σ.2 v =
          some ((bip135Run t nTime nVersion d (.defined, 0, 0) (A ++ v)).1, cache') ∧
        CacheCorrect t nTime nVersion d cache'
  | [], A, cache, σ, hσ, hcache, _, _, _ => ⟨cache, by rw [List.append_nil, hσ]; rfl, hcache⟩
  | x :: v, A, cache, σ, hσ, hcache, hchain, hheights, hlock => by
    obtain ⟨hPx, hHx⟩ := hheights x List.mem_cons_self
    have hstep : getStateForStep t nTime nVersion d x σ.1 σ.2 = some (bip135Step t nTime nVersion d x σ) :=
      getStateForStep_eq hPx htime hblocks hlock
    have hx : periodBoundaries t d.windowsize.toNat (some x) = A ++ [x] := by simpa using hchain [] x v rfl
    have hσ' : bip135Run t nTime nVersion d (.defined, 0, 0) (A ++ [x]) = bip135Step t nTime nVersion d x σ := by
      rw [bip135Run_append, hσ]
      rfl
    have hcacheX : CacheCorrect t nTime nVersion d
        (Function.update cache (some x) (some (bip135Step t nTime nVersion d x σ).1)) :=
      hcache.update (by rw [bip135State, hx, hσ'])
    have hchain' : ∀ V₁ y V₂, v = V₁ ++ y :: V₂ →
        periodBoundaries t d.windowsize.toNat (some y) = A ++ [x] ++ V₁ ++ [y] := fun V₁ y V₂ h => by
      rw [hchain (x :: V₁) y V₂ (by rw [h]; rfl)]
      simp
    obtain ⟨cache', hwalk, hcache'⟩ := getStateForWalkForward_spec htime hblocks v (A ++ [x]) _ _ hσ' hcacheX
      hchain' (fun y hy => hheights y (List.mem_cons_of_mem x hy)) (bip135Step_lockinWithin hHx hlock)
    refine ⟨cache', ?_, hcache'⟩
    rw [getStateForWalkForward, hstep, Option.bind_eq_bind, Option.bind_some]
    rw [List.append_assoc, List.singleton_append] at hwalk
    exact hwalk

variable (hbuilt : t.SkipsBuilt) (hP : 1 ≤ d.windowsize)
include hbuilt hP

omit [DecidableEq B] in
/-- The walk back steps to the previous period. -/
theorem getAncestorInt_windowsize (b : B) :
    t.getAncestorInt b (t.nHeight b - d.windowsize) = previousPeriod t d.windowsize.toNat b := by
  have hw : d.windowsize = (d.windowsize.toNat : Int) := (Int.toNat_of_nonneg (by omega)).symm
  unfold BlockTree.getAncestorInt previousPeriod
  by_cases hlt : t.nHeight b < d.windowsize.toNat
  · rw [if_pos (by omega), if_pos hlt]
  · rw [if_neg (by omega), if_neg hlt, t.getAncestor_eq_up hbuilt, if_neg (by omega),
      show t.nHeight b - (↑(t.nHeight b) - d.windowsize).toNat = d.windowsize.toNat by omega]

omit [DecidableEq B] in
/-- `GetStateFor` first goes to the boundary before the period. -/
theorem getAncestorInt_periodStart (b : B) :
    t.getAncestorInt b (t.nHeight b - Int.tmod (t.nHeight b + 1) d.windowsize) =
      if t.nHeight b + 1 < d.windowsize.toNat then none
      else Forest.up t.pprev b ((t.nHeight b + 1) % d.windowsize.toNat) := by
  obtain ⟨P, hw⟩ : ∃ P : Nat, d.windowsize = P := ⟨d.windowsize.toNat, by omega⟩
  have hmod : Int.tmod (t.nHeight b + 1) P = ((t.nHeight b + 1) % P : Nat) :=
    (Int.ofNat_tmod (t.nHeight b + 1) P).symm
  have hlt := Nat.mod_lt (t.nHeight b + 1) (show 0 < P by omega)
  unfold BlockTree.getAncestorInt
  rw [hw, Int.toNat_natCast, hmod]
  by_cases hsmall : t.nHeight b + 1 < P
  · rw [if_pos hsmall, Nat.mod_eq_of_lt hsmall, if_pos (by omega)]
  · rw [if_neg hsmall, if_neg (by omega), t.getAncestor_eq_up hbuilt, if_neg (by omega)]
    congr 1
    omega

/-- The walk back stops at a block whose state is `DEFINED` with no lock-in
seen, cached as such, having pushed the boundaries above it; the cache stays
correct. -/
theorem getStateForWalkBack_spec
    (hmono : ∀ b p, t.pprev b = some p → t.medianTimePast nTime p ≤ t.medianTimePast nTime b)
    (hstart : d.nStartTime ≤ d.nTimeout) (hw : d.windowsize ≠ 0) {cache : ThresholdConditionCache B}
    (hcache : CacheCorrect t nTime nVersion d cache) {B0 : Option B} :
    ∀ (c : Option B) (v : List B), WalkBackInv t d.windowsize.toNat B0 c v →
      ∀ stop v' cache', getStateForWalkBack t nTime d hw cache c v = (stop, v', cache') →
        CacheCorrect t nTime nVersion d cache' ∧ cache' stop = some .defined ∧
          WalkBackInv t d.windowsize.toNat B0 stop v' ∧
          bip135Run t nTime nVersion d (.defined, 0, 0) (periodBoundaries t d.windowsize.toNat stop) =
            (.defined, 0, 0) := by
  intro c v
  induction c, v using getStateForWalkBack.induct t nTime d hw cache with
  | case1 c v hback =>
    intro hinv stop v' cache' h
    rw [getStateForWalkBack.eq_def, if_pos hback, Prod.mk.injEq, Prod.mk.injEq] at h
    obtain ⟨rfl, rfl, rfl⟩ := h
    have hdef : cache c = some .defined := by simpa [backAtDefined] using hback
    exact ⟨hcache, hdef, hinv, bip135Run_of_defined _ _ (hcache c _ hdef)⟩
  | case2 v hback =>
    intro hinv stop v' cache' h
    rw [getStateForWalkBack, if_neg hback] at h
    simp only [Prod.mk.injEq] at h
    obtain ⟨rfl, rfl, rfl⟩ := h
    exact ⟨hcache.update rfl, Function.update_self _ _ _, hinv, rfl⟩
  | case3 v b hmtp hback =>
    intro hinv stop v' cache' h
    rw [getStateForWalkBack, if_neg hback] at h
    simp only [if_pos hmtp, Prod.mk.injEq] at h
    obtain ⟨rfl, rfl, rfl⟩ := h
    have hrun : bip135Run t nTime nVersion d (.defined, 0, 0) (periodBoundaries t d.windowsize.toNat (some b)) =
        (.defined, 0, 0) := by
      apply bip135Run_before_start hstart
      intro c hc
      obtain ⟨_, hb, -, -, hanc⟩ := mem_periodBoundaries (show 0 < d.windowsize.toNat by omega) hc
      cases hb
      have := Forest.IsAncestor.le_of_parent_le hmono hanc
      omega
    exact ⟨hcache.update (congrArg Prod.fst hrun), Function.update_self _ _ _, hinv, hrun⟩
  | case4 v b hmtp hback ih =>
    intro hinv stop v' cache' h
    rw [getStateForWalkBack, if_neg hback] at h
    simp only [if_neg hmtp] at h
    apply ih _ stop v' cache' h
    rw [getAncestorInt_windowsize hbuilt hP b]
    exact hinv.previousPeriod (by omega)

/-- `GetStateFor` returns the specified state and keeps the cache correct,
whatever correct entries the cache held before. -/
theorem getStateFor_eq_bip135State
    (hmono : ∀ b p, t.pprev b = some p → t.medianTimePast nTime p ≤ t.medianTimePast nTime b)
    (hstart : d.nStartTime ≤ d.nTimeout) (htime : d.minlockedtime ≤ int64Max - 2 ^ 32)
    {pindexPrev : Option B} (hblocks : ∀ b, pindexPrev = some b → t.nHeight b + d.minlockedblocks < 2 ^ 31)
    {cache : ThresholdConditionCache B} (hcache : CacheCorrect t nTime nVersion d cache) :
    ∃ cache', getStateFor t nTime nVersion d cache pindexPrev =
        some (bip135State t nTime nVersion d pindexPrev, cache') ∧ CacheCorrect t nTime nVersion d cache' := by
  have hw : d.windowsize ≠ 0 := by omega
  have hpos : 0 < d.windowsize.toNat := by omega
  obtain ⟨B0, hB0def⟩ : ∃ B0, pindexPrev.bind (fun b =>
      t.getAncestorInt b (t.nHeight b - Int.tmod (t.nHeight b + 1) d.windowsize)) = B0 := ⟨_, rfl⟩
  have hB0 : periodBoundaries t d.windowsize.toNat B0 = periodBoundaries t d.windowsize.toNat pindexPrev := by
    rw [← hB0def]
    cases pindexPrev with
    | none => rfl
    | some b =>
      rw [Option.bind_some, getAncestorInt_periodStart hbuilt hP b]
      exact periodBoundaries_periodStart hpos b
  have hB0bd : ∀ b, B0 = some b → (t.nHeight b + 1) % d.windowsize.toNat = 0 := by
    intro b hb
    rw [← hB0def] at hb
    cases pindexPrev with
    | none => cases hb
    | some p =>
      rw [Option.bind_some, getAncestorInt_periodStart hbuilt hP p] at hb
      split_ifs at hb
      have hheight := t.up_height hb
      have hdiv := Nat.div_add_mod' (t.nHeight p + 1) d.windowsize.toNat
      rw [show t.nHeight b + 1 = (t.nHeight p + 1) / d.windowsize.toNat * d.windowsize.toNat by omega,
        Nat.mul_mod_left]
  have hinv : WalkBackInv t d.windowsize.toNat B0 B0 [] :=
    ⟨(List.append_nil _).symm, fun V₁ x V₂ h => by simp at h, hB0bd⟩
  rcases hwb : getStateForWalkBack t nTime d hw cache B0 [] with ⟨stop, v', cache'⟩
  obtain ⟨hcache', hdef, ⟨hsplit, hchain, -⟩, hrun⟩ :=
    getStateForWalkBack_spec hbuilt hP hmono hstart hw hcache B0 [] hinv stop v' cache' hwb
  have hheights : ∀ x ∈ v', d.windowsize.toNat ≤ t.nHeight x + 1 ∧
      t.nHeight x ≤ pindexPrev.elim 0 t.nHeight := by
    intro x hx
    have hmem : x ∈ periodBoundaries t d.windowsize.toNat pindexPrev := by
      rw [← hB0, hsplit]
      exact List.mem_append_right _ hx
    obtain ⟨b, rfl, hxP, -, hanc⟩ := mem_periodBoundaries hpos hmem
    exact ⟨hxP, hanc.height_le t.height_pprev⟩
  have hblocks' : pindexPrev.elim 0 t.nHeight + d.minlockedblocks < 2 ^ 31 := by
    cases pindexPrev with
    | none => simpa using d.minlockedblocks_isInt32.2
    | some b => exact hblocks b rfl
  obtain ⟨cache'', hfwd, hcache''⟩ := getStateForWalkForward_spec htime hblocks' v'
    (periodBoundaries t d.windowsize.toNat stop) cache' _ hrun hcache' hchain hheights
    (by dsimp only [LockinWithin]; omega)
  refine ⟨cache'', ?_, hcache''⟩
  simp only [getStateFor, dif_neg hw]
  rw [hB0def, hwb]
  dsimp only
  rw [if_pos hdef, hfwd, ← hsplit, hB0]
  rfl

/-- A run of calls on a correct cache answers each with its specified state. -/
theorem getStateForCalls_eq
    (hmono : ∀ b p, t.pprev b = some p → t.medianTimePast nTime p ≤ t.medianTimePast nTime b)
    (hstart : d.nStartTime ≤ d.nTimeout) (htime : d.minlockedtime ≤ int64Max - 2 ^ 32) :
    ∀ (queries : List (Option B)), (∀ q ∈ queries, ∀ b, q = some b → t.nHeight b + d.minlockedblocks < 2 ^ 31) →
      ∀ cache, CacheCorrect t nTime nVersion d cache →
        ∃ cache', getStateForCalls t nTime nVersion d cache queries =
            some (queries.map (bip135State t nTime nVersion d), cache') ∧ CacheCorrect t nTime nVersion d cache'
  | [], _, cache, hcache => ⟨cache, rfl, hcache⟩
  | q :: queries, hblocks, cache, hcache => by
    obtain ⟨cache₁, hcall, hcache₁⟩ := getStateFor_eq_bip135State hbuilt hP hmono hstart htime
      (hblocks q List.mem_cons_self) hcache
    obtain ⟨cache', hcalls, hcache'⟩ := getStateForCalls_eq hmono hstart htime queries
      (fun q' hq' => hblocks q' (List.mem_cons_of_mem q hq')) cache₁ hcache₁
    refine ⟨cache', ?_, hcache'⟩
    rw [getStateForCalls, hcall, Option.bind_eq_bind, Option.bind_some]
    dsimp only
    rw [hcalls]
    rfl

/-- BIP135 deployment states do not depend on the cache: from the empty cache,
every call of any sequence returns the state the specification steps to. -/
theorem getStateFor_matches_bip135
    (hmono : ∀ b p, t.pprev b = some p → t.medianTimePast nTime p ≤ t.medianTimePast nTime b)
    (hstart : d.nStartTime ≤ d.nTimeout) (htime : d.minlockedtime ≤ int64Max - 2 ^ 32)
    (queries : List (Option B))
    (hblocks : ∀ q ∈ queries, ∀ b, q = some b → t.nHeight b + d.minlockedblocks < 2 ^ 31) :
    ∃ cache', getStateForCalls t nTime nVersion d (fun _ => none) queries =
      some (queries.map (bip135State t nTime nVersion d), cache') := by
  obtain ⟨cache', hcalls, -⟩ :=
    getStateForCalls_eq hbuilt hP hmono hstart htime queries hblocks (fun _ => none) (fun _ _ h => by cases h)
  exact ⟨cache', hcalls⟩

end Walks

/-- A deployment on bit 0 with a window of two blocks, on a chain whose blocks
all carry the time 10 and signal. -/
theorem getStateFor_matches_bip135_chain :
    ∃ cache', getStateForCalls BlockTree.chain (fun _ => 10) (fun _ => 0x20000001)
        (⟨0, 0, 100, 2, 1, 0, 0, by decide, by decide, by decide⟩ : ForkDeployment) (fun _ => none)
        [some 5, some 3, some 8] =
      some ([some 5, some 3, some 8].map (bip135State BlockTree.chain (fun _ => 10) (fun _ => 0x20000001)
        ⟨0, 0, 100, 2, 1, 0, 0, by decide, by decide, by decide⟩), cache') :=
  getStateFor_matches_bip135 BlockTree.chain_skipsBuilt (by decide)
    (fun b p _ => by
      have hb : BlockTree.chain.medianTimePast (fun _ => 10) b = 10 :=
        BlockTree.chain.medianTimePast_of_forall _ (· = 10) (fun _ => rfl) b
      have hp : BlockTree.chain.medianTimePast (fun _ => 10) p = 10 :=
        BlockTree.chain.medianTimePast_of_forall _ (· = 10) (fun _ => rfl) p
      omega)
    (by decide) (by decide) _ (by simp [BlockTree.chain])

/-- With the timeout before the start time, a first period whose median time
past lies between them is `FAILED` by the specification, but the shortcut on
the start time returns `DEFINED`. -/
theorem getStateFor_defined_after_timeout :
    (getStateFor BlockTree.chain (fun _ => 10) (fun _ => 0)
        (⟨0, 20, 5, 1, 1, 0, 0, by decide, by decide, by decide⟩ : ForkDeployment) (fun _ => none)
        (some 0)).map Prod.fst = some .defined ∧
      bip135State BlockTree.chain (fun _ => 10) (fun _ => 0)
        ⟨0, 20, 5, 1, 1, 0, 0, by decide, by decide, by decide⟩ (some 0) = .failed := by
  have hmtp : BlockTree.chain.medianTimePast (fun _ => 10) 0 = 10 :=
    BlockTree.chain.medianTimePast_of_forall _ (· = 10) (fun _ => rfl) 0
  have h0 : BlockTree.chain.nHeight 0 = 0 := rfl
  have hanc : BlockTree.chain.getAncestor 0 0 = some 0 := by
    rw [BlockTree.chain.getAncestor_eq_up BlockTree.chain_skipsBuilt]
    rfl
  have hbd : periodBoundaries BlockTree.chain 1 (some 0) = [0] := by
    show boundariesBelow BlockTree.chain 1 0 (0 + 1) = [0]
    rw [boundariesBelow, boundariesBelow, show (0 + 1) * 1 - 1 = BlockTree.chain.nHeight 0 from rfl,
      ancestorAt_self]
    rfl
  constructor
  · simp [getStateFor, BlockTree.getAncestorInt, h0, hanc, getStateForWalkBack, backAtDefined, hmtp,
      getStateForWalkForward]
  · simp only [bip135State, show (1 : Int).toNat = 1 from rfl, hbd, bip135Run_cons, bip135Run_nil]
    simp [bip135Step, hmtp]

end Membercoin
