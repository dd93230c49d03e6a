import Membercoin.Consensus.AsertAnchor

/-!
# Relative lock-times (consensus/tx_verify.cpp)

`CalculateSequenceLocks` folds the inputs of a transaction into the last
invalid height and time, starting from `-1` and subtracting one from each
input's first valid height or time; `EvaluateSequenceLocks` then asks that
both lie below the block height and the median time past of its parent.
`sequenceLocks_bip68` states that the two minus-one conventions cancel: the
result is BIP68's test on each input, written with the ancestor at the coin's
height and without the offsets.
-/

namespace Membercoin

/-- The field of `CTxIn` that the sequence locks read. -/
structure CTxIn where
  nSequence : UInt32
  deriving Repr, DecidableEq

namespace CTxIn

/-- `SEQUENCE_LOCKTIME_DISABLE_FLAG`: no relative lock-time for this input. -/
def sequenceLocktimeDisableFlag : UInt32 := (1 : UInt32) <<< 31

/-- `SEQUENCE_LOCKTIME_TYPE_FLAG`: the lock-time counts units of 512 seconds. -/
def sequenceLocktimeTypeFlag : UInt32 := (1 : UInt32) <<< 22

/-- `SEQUENCE_LOCKTIME_MASK`. -/
def sequenceLocktimeMask : UInt32 := 0x0000ffff

/-- `SEQUENCE_LOCKTIME_GRANULARITY`. -/
def sequenceLocktimeGranularity : UInt32 := 9

end CTxIn

/-- The fields of `CTransaction` that the sequence locks read. -/
structure CTransaction where
  nVersion : Int32
  vin : List CTxIn
  deriving Repr

/-- `LOCKTIME_VERIFY_SEQUENCE`. -/
def lockTimeVerifySequence : UInt32 := (1 : UInt32) <<< 0

/-- A signed `int` result: outside the range the C++ is undefined. -/
def checkedInt32 (v : Int) : Option Int := if -2 ^ 31 ≤ v ∧ v < 2 ^ 31 then some v else none

section SequenceLocks

variable {B : Type} (t : BlockTree B) (nTime : B → UInt32)

/-- `fEnforceBIP68`: the version read as `uint32_t` is at least two and
the flag is set. -/
def enforceBIP68 (tx : CTransaction) (flags : UInt32) : Bool :=
  tx.nVersion.toUInt32 ≥ 2 && flags &&& lockTimeVerifySequence != 0

/-- The body of the loop of `CalculateSequenceLocks` for an input whose lock
is not disabled: the lock pair raised by the input's last invalid height or
time. -/
def sequenceLockOfInput (block : B) (txin : CTxIn) (nCoinHeight : Int) (lockPair : Int × Int) :
    Option (Int × Int) :=
  let masked := txin.nSequence &&& CTxIn.sequenceLocktimeMask
  if txin.nSequence &&& CTxIn.sequenceLocktimeTypeFlag ≠ 0 then do
    let height ← checkedInt32 (nCoinHeight - 1)
    -- a null ancestor is dereferenced: undefined
    let anc ← t.getAncestor block (max height 0).toNat
    let nCoinTime : Int := t.medianTimePast nTime anc
    -- below 2 ^ 32 + 2 ^ 25: the `int64_t` sum cannot overflow
    pure (lockPair.1, max lockPair.2 (nCoinTime + (masked <<< CTxIn.sequenceLocktimeGranularity).toNat - 1))
  else do
    let sum ← checkedInt32 (nCoinHeight + masked.toNat)
    let height ← checkedInt32 (sum - 1)
    pure (max lockPair.1 height, lockPair.2)

/-- The loop of `CalculateSequenceLocks` over the inputs and their coin
heights; it returns the lock pair and the heights with those of the disabled
inputs set to zero. -/
def calculateSequenceLocksLoop (block : B) :
    List CTxIn → List Int → Int × Int → Option ((Int × Int) × List Int)
  | [], [], lockPair => some (lockPair, [])
  | txin :: vin, nCoinHeight :: prevHeights, lockPair =>
    if txin.nSequence &&& CTxIn.sequenceLocktimeDisableFlag ≠ 0 then
      (calculateSequenceLocksLoop block vin prevHeights lockPair).map fun r => (r.1, 0 :: r.2)
    else
      (sequenceLockOfInput t nTime block txin nCoinHeight lockPair).bind fun lockPair =>
        (calculateSequenceLocksLoop block vin prevHeights lockPair).map fun r => (r.1, nCoinHeight :: r.2)
  | _, _, _ => none

/-- `CalculateSequenceLocks`: the last invalid height and time, and the
coin heights as the call leaves them. -/
def calculateSequenceLocks (tx : CTransaction) (flags : UInt32) (prevHeights : List Int) (block : B) :
    Option ((Int × Int) × List Int) :=
  if prevHeights.length ≠ tx.vin.length then none
  else if !enforceBIP68 tx flags then some ((-1, -1), prevHeights)
  else calculateSequenceLocksLoop t nTime block tx.vin prevHeights (-1, -1)

/-- `EvaluateSequenceLocks`; the assertion on `pprev` fails as `none`. -/
def evaluateSequenceLocks (block : B) (lockPair : Int × Int) : Option Bool := do
  let pprev ← t.pprev block
  let nBlockTime : Int := t.medianTimePast nTime pprev
  pure !(lockPair.1 ≥ t.nHeight block || lockPair.2 ≥ nBlockTime)

/-- `SequenceLocks`, with the coin heights it leaves behind. -/
def sequenceLocks (tx : CTransaction) (flags : UInt32) (prevHeights : List Int) (block : B) :
    Option (Bool × List Int) := do
  let (lockPair, prevHeights') ← calculateSequenceLocks t nTime tx flags prevHeights block
  let r ← evaluateSequenceLocks t nTime block lockPair
  pure (r, prevHeights')

/-- BIP68 for one input of a block `b` with parent `p`, its coin at height
`h`: a time lock of `k` units asks that the parent's median time past is
`512 k` seconds past that of the block before the coin's, a height lock
that the block is `k` blocks above the coin. -/
def SequenceLockHolds (b p : B) (txin : CTxIn) (h : Int) : Prop :=
  txin.nSequence &&& CTxIn.sequenceLocktimeDisableFlag = 0 →
    if txin.nSequence &&& CTxIn.sequenceLocktimeTypeFlag ≠ 0 then
      ∀ a, Forest.up t.pprev b (t.nHeight b - (max (h - 1) 0).toNat) = some a →
        t.medianTimePast nTime a + (txin.nSequence &&& CTxIn.sequenceLocktimeMask).toNat * 2 ^ 9 ≤
          t.medianTimePast nTime p
    else h + (txin.nSequence &&& CTxIn.sequenceLocktimeMask).toNat ≤ t.nHeight b

/-- The coin heights with those of the disabled inputs set to zero. -/
def zeroDisabled (vin : List CTxIn) (prevHeights : List Int) : List Int :=
  List.zipWith (fun txin h => if txin.nSequence &&& CTxIn.sequenceLocktimeDisableFlag ≠ 0 then 0 else h)
    vin prevHeights

@[simp] theorem zeroDisabled_nil : zeroDisabled [] [] = [] := rfl

@[simp] theorem zeroDisabled_cons (txin : CTxIn) (vin : List CTxIn) (h : Int) (prevHeights : List Int) :
    zeroDisabled (txin :: vin) (h :: prevHeights) =
      (if txin.nSequence &&& CTxIn.sequenceLocktimeDisableFlag ≠ 0 then 0 else h) ::
        zeroDisabled vin prevHeights := rfl

theorem checkedInt32_eq {v : Int} (hlo : -2 ^ 31 ≤ v) (hhi : v < 2 ^ 31) : checkedInt32 v = some v :=
  if_pos ⟨hlo, hhi⟩

theorem toNat_and_sequenceLocktimeMask_le (x : UInt32) :
    (x &&& CTxIn.sequenceLocktimeMask).toNat ≤ 0xffff := by
  rw [UInt32.toNat_and]
  exact Nat.and_le_right

/-- The shift by the granularity does not wrap: it is multiplication by 512. -/
theorem toNat_shiftLeft_granularity (x : UInt32) :
    ((x &&& CTxIn.sequenceLocktimeMask) <<< CTxIn.sequenceLocktimeGranularity).toNat =
      (x &&& CTxIn.sequenceLocktimeMask).toNat * 2 ^ 9 := by
  have hm := toNat_and_sequenceLocktimeMask_le x
  rw [UInt32.toNat_shiftLeft, Nat.shiftLeft_eq,
    show CTxIn.sequenceLocktimeGranularity.toNat % 32 = 9 from rfl]
  exact Nat.mod_eq_of_lt (by omega)

theorem enforceBIP68_eq_false_iff (tx : CTransaction) (flags : UInt32) :
    enforceBIP68 tx flags = false ↔ tx.nVersion.toUInt32 < 2 ∨ flags &&& lockTimeVerifySequence = 0 := by
  simp [enforceBIP68, imp_iff_not_or]

variable {t}
variable (hbuilt : t.SkipsBuilt) {b : B}
include hbuilt

/-- One input whose lock is not disabled raises the lock pair to stay below the
block's height and its parent's median time past exactly when BIP68 holds for
it. -/
theorem sequenceLockOfInput_spec (p : B) (txin : CTxIn) {h : Int} (hh : 0 ≤ h ∧ h ≤ t.nHeight b)
    (hmax : t.nHeight b + 0xffff < 2 ^ 31) (hen : txin.nSequence &&& CTxIn.sequenceLocktimeDisableFlag = 0)
    (lockPair : Int × Int) :
    ∃ lockPair', sequenceLockOfInput t nTime b txin h lockPair = some lockPair' ∧
      (lockPair'.1 < t.nHeight b ∧ lockPair'.2 < t.medianTimePast nTime p ↔
        lockPair.1 < t.nHeight b ∧ lockPair.2 < t.medianTimePast nTime p ∧
          SequenceLockHolds t nTime b p txin h) := by
  have hm := toNat_and_sequenceLocktimeMask_le txin.nSequence
  unfold sequenceLockOfInput SequenceLockHolds
  by_cases htype : txin.nSequence &&& CTxIn.sequenceLocktimeTypeFlag ≠ 0
  · obtain ⟨a, ha⟩ := t.up_isSome (show t.nHeight b - (max (h - 1) 0).toNat ≤ t.nHeight b by omega)
    have hanc : t.getAncestor b (max (h - 1) 0).toNat = some a := by
      rw [t.getAncestor_eq_up hbuilt, if_neg (by omega), ha]
    refine ⟨(lockPair.1, max lockPair.2 (t.medianTimePast nTime a +
      ((txin.nSequence &&& CTxIn.sequenceLocktimeMask).toNat * 2 ^ 9 : Nat) - 1)), ?_, ?_⟩
    · have hprev : checkedInt32 (h - 1) = some (h - 1) := checkedInt32_eq (by omega) (by omega)
      simp only [if_pos htype, hprev, hanc, Option.bind_eq_bind, Option.bind_some,
        toNat_shiftLeft_granularity]
      rfl
    · simp [hen, htype, ha]
      omega
  · refine ⟨(max lockPair.1 (h + (txin.nSequence &&& CTxIn.sequenceLocktimeMask).toNat - 1),
      lockPair.2), ?_, ?_⟩
    · have hsum : checkedInt32 (h + (txin.nSequence &&& CTxIn.sequenceLocktimeMask).toNat) =
          some (h + (txin.nSequence &&& CTxIn.sequenceLocktimeMask).toNat) :=
        checkedInt32_eq (by omega) (by omega)
      have hlast : checkedInt32 (h + (txin.nSequence &&& CTxIn.sequenceLocktimeMask).toNat - 1) =
          some (h + (txin.nSequence &&& CTxIn.sequenceLocktimeMask).toNat - 1) :=
        checkedInt32_eq (by omega) (by omega)
      simp only [if_neg htype, hsum, hlast, Option.bind_eq_bind, Option.bind_some]
      rfl
    · simp [hen, htype]
      omega

/-- The loop keeps the lock pair below the block's height and its parent's
median time past exactly when it started there and BIP68 holds for every
input; it zeroes the heights of the disabled inputs. -/
theorem calculateSequenceLocksLoop_spec (p : B) (hmax : t.nHeight b + 0xffff < 2 ^ 31) :
    ∀ (vin : List CTxIn) (prevHeights : List Int) (lockPair : Int × Int),
      prevHeights.length = vin.length → (∀ h ∈ prevHeights, 0 ≤ h ∧ h ≤ t.nHeight b) →
      ∃ lockPair', calculateSequenceLocksLoop t nTime b vin prevHeights lockPair =
          some (lockPair', zeroDisabled vin prevHeights) ∧
        (lockPair'.1 < t.nHeight b ∧ lockPair'.2 < t.medianTimePast nTime p ↔
          lockPair.1 < t.nHeight b ∧ lockPair.2 < t.medianTimePast nTime p ∧
            ∀ x ∈ vin.zip prevHeights, SequenceLockHolds t nTime b p x.1 x.2)
  | [], [], lockPair, _, _ => ⟨lockPair, rfl, by simp⟩
  | txin :: vin, h :: prevHeights, lockPair, hlen, hheights => by
    have hlen' : prevHeights.length = vin.length := by simpa using hlen
    have hh := hheights h List.mem_cons_self
    have hrest : ∀ h' ∈ prevHeights, 0 ≤ h' ∧ h' ≤ t.nHeight b :=
      fun h' hmem => hheights h' (List.mem_cons_of_mem h hmem)
    by_cases hdis : txin.nSequence &&& CTxIn.sequenceLocktimeDisableFlag ≠ 0
    · obtain ⟨lockPair', hloop, hiff⟩ :=
        calculateSequenceLocksLoop_spec p hmax vin prevHeights lockPair hlen' hrest
      have hholds : SequenceLockHolds t nTime b p txin h := fun hen => absurd hen hdis
      refine ⟨lockPair', ?_, ?_⟩
      · simp [calculateSequenceLocksLoop, hdis, hloop]
      · simp [hiff, hholds]
    · have hen : txin.nSequence &&& CTxIn.sequenceLocktimeDisableFlag = 0 := by simpa using hdis
      obtain ⟨lockPair₁, hstep, hiff₁⟩ := sequenceLockOfInput_spec nTime hbuilt p txin hh hmax hen lockPair
      obtain ⟨lockPair', hloop, hiff⟩ :=
        calculateSequenceLocksLoop_spec p hmax vin prevHeights lockPair₁ hlen' hrest
      refine ⟨lockPair', ?_, ?_⟩
      · simp [calculateSequenceLocksLoop, hdis, hstep, hloop]
      · rw [hiff, ← and_assoc, hiff₁]
        simp only [List.zip_cons_cons, List.forall_mem_cons, and_assoc]
  | [], _ :: _, _, hlen, _ => by simp at hlen
  | _ :: _, [], _, hlen, _ => by simp at hlen

omit hbuilt in
theorem evaluateSequenceLocks_eq {p : B} (hp : t.pprev b = some p) (lockPair : Int × Int) :
    evaluateSequenceLocks t nTime b lockPair =
      some (decide (lockPair.1 < t.nHeight b ∧ lockPair.2 < t.medianTimePast nTime p)) := by
  simp [evaluateSequenceLocks, hp, ← decide_not]

/-- `SequenceLocks` is BIP68. With every coin at most as high as the block and
the block low enough that no height sum overflows, it holds exactly when BIP68
is not enforced or every input meets its lock, and it zeroes the heights of
the disabled inputs, but only when BIP68 is enforced. -/
theorem sequenceLocks_bip68 (tx : CTransaction) (flags : UInt32) (prevHeights : List Int) {p : B}
    (hp : t.pprev b = some p) (hlen : prevHeights.length = tx.vin.length)
    (hheights : ∀ h ∈ prevHeights, 0 ≤ h ∧ h ≤ t.nHeight b) (hmax : t.nHeight b + 0xffff < 2 ^ 31) :
    ∃ r prevHeights', sequenceLocks t nTime tx flags prevHeights b = some (r, prevHeights') ∧
      (r = true ↔ (tx.nVersion.toUInt32 < 2 ∨ flags &&& lockTimeVerifySequence = 0) ∨
          ∀ x ∈ tx.vin.zip prevHeights, SequenceLockHolds t nTime b p x.1 x.2) ∧
      prevHeights' = if tx.nVersion.toUInt32 < 2 ∨ flags &&& lockTimeVerifySequence = 0 then prevHeights
        else zeroDisabled tx.vin prevHeights := by
  have hoff := enforceBIP68_eq_false_iff tx flags
  have hstart : (-1 : Int) < t.nHeight b ∧ (-1 : Int) < t.medianTimePast nTime p := by omega
  cases henf : enforceBIP68 tx flags with
  | false =>
    have hnot := hoff.mp henf
    refine ⟨true, prevHeights, ?_, by simp [hnot], by simp [hnot]⟩
    simp [sequenceLocks, calculateSequenceLocks, hlen, henf, evaluateSequenceLocks_eq nTime hp, hstart]
  | true =>
    have hon : ¬(tx.nVersion.toUInt32 < 2 ∨ flags &&& lockTimeVerifySequence = 0) :=
      fun hnot => by simp [hoff.mpr hnot] at henf
    obtain ⟨lockPair, hloop, hiff⟩ :=
      calculateSequenceLocksLoop_spec nTime hbuilt p hmax tx.vin prevHeights (-1, -1) hlen hheights
    refine ⟨decide (lockPair.1 < t.nHeight b ∧ lockPair.2 < t.medianTimePast nTime p),
      zeroDisabled tx.vin prevHeights, ?_, ?_, by simp [hon]⟩
    · simp [sequenceLocks, calculateSequenceLocks, hlen, henf, hloop, evaluateSequenceLocks_eq nTime hp]
    · simp [hiff, hon, hstart]

end SequenceLocks

/-- A transaction of version two with one input under a height lock of three
blocks, its coin at height two, in block six of a chain. -/
theorem sequenceLocks_bip68_heightLock :
    ∃ r prevHeights', sequenceLocks BlockTree.chain (fun _ => 0) ⟨2, [⟨3⟩]⟩ lockTimeVerifySequence [2] 6 =
        some (r, prevHeights') ∧
      (r = true ↔ ((⟨2, [⟨3⟩]⟩ : CTransaction).nVersion.toUInt32 < 2 ∨
            lockTimeVerifySequence &&& lockTimeVerifySequence = 0) ∨
          ∀ x ∈ (⟨2, [⟨3⟩]⟩ : CTransaction).vin.zip [2],
            SequenceLockHolds BlockTree.chain (fun _ => 0) 6 5 x.1 x.2) ∧
      prevHeights' = if (⟨2, [⟨3⟩]⟩ : CTransaction).nVersion.toUInt32 < 2 ∨
          lockTimeVerifySequence &&& lockTimeVerifySequence = 0 then [2]
        else zeroDisabled (⟨2, [⟨3⟩]⟩ : CTransaction).vin [2] :=
  sequenceLocks_bip68 (fun _ => 0) BlockTree.chain_skipsBuilt ⟨2, [⟨3⟩]⟩ lockTimeVerifySequence [2] rfl rfl
    (by simp [BlockTree.chain]) (by simp [BlockTree.chain])

/-- With BIP68 not enforced, a disabled input keeps its coin height: the call
returns before the loop that zeroes it. -/
theorem sequenceLocks_keeps_disabled_height :
    sequenceLocks BlockTree.chain (fun _ => 0) ⟨1, [⟨CTxIn.sequenceLocktimeDisableFlag⟩]⟩
      lockTimeVerifySequence [5] 6 = some (true, [5]) := by
  have hp : BlockTree.chain.pprev 6 = some 5 := rfl
  have henf : enforceBIP68 ⟨1, [⟨CTxIn.sequenceLocktimeDisableFlag⟩]⟩ lockTimeVerifySequence = false := by
    decide
  simp [sequenceLocks, calculateSequenceLocks, henf, evaluateSequenceLocks_eq _ hp]
  omega

end Membercoin
