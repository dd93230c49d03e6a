import Membercoin.Coins.Refines
import Membercoin.Consensus.Interest
import Membercoin.Encoding.Money

/-!
# Spending a transaction's coins (coins.cpp, consensus/tx_verify.cpp)

A transaction spends the coins at the outpoints of its inputs and creates a
coin at each of its outputs. Membercoin values an input with the interest
of its coin's age at the spend height (`GetValueWithInterest`), so a
transaction may pay out more than its coins hold: the interest is its to
spend.

`Consensus::CheckTxInputs` asks that the view hold every input
(`HaveInputs`), reads the spend height once, refuses a coinbase's coin younger
than `COINBASE_MATURITY`, adds up the inputs' values with interest, checking
each and the sum against `MoneyRange`, and asks that the sum cover
`GetValueOut`. Over a view whose coins have amounts in `[0, MAX_MONEY]`, it
accepts exactly when every input is there and mature, the inputs are worth
at most `MAX_MONEY` with interest, and the outputs at most that
(`checkTxInputs_eq_ok_iff`): no signed overflow, no failed `assert`, and the
fee checks never fire. The coinbase branch checks the value with interest
where the other checks the bare amount; on such a view the two agree.

`UpdateCoins` is a list of calls on the view: `SpendCoin` of each input,
then `AddCoin` of each output with `possible_overwrite` set for a coinbase.
From a chain of caches that refines the UTXO map, it runs without a
`std::logic_error` and ends refining the map with the inputs spent and the
outputs added (`updateCoins_refines`).

The view is seen through `inputs`, the unspent coin it holds at an outpoint:
what `HaveCoin` and `GetCoin` read (`fetchCoin_spec`); a spent or missing
coin reads as `Coin()`.
-/

namespace Membercoin

/-- `COutPoint`: a transaction's hash and the index of one of its outputs. -/
structure COutPoint where
  hash : Uint256
  n : UInt32
  deriving DecidableEq

/-- `COutPoint::IsNull`: the outpoint that a coinbase's input names. -/
def COutPoint.isNull (p : COutPoint) : Bool := p.hash.isNull && p.n == 0xFFFFFFFF

/-- `MoneyRange` (amount.h). -/
def moneyRange (nValue : Int) : Bool := 0 ≤ nValue && nValue ≤ (maxMoney : Int)

@[simp] theorem moneyRange_eq_true_iff (nValue : Int) : moneyRange nValue = true ↔ 0 ≤ nValue ∧ nValue ≤ maxMoney := by
  simp [moneyRange]

/-- `REJECT_INVALID` (consensus/validation.h). -/
def rejectInvalid : UInt8 := 0x10

/-- `COINBASE_MATURITY` (consensus/consensus.h). -/
def coinbaseMaturity : Int := 20

/-- How a check of a transaction ends when it does not return `true`. -/
inductive TxCheckError where
  /-- `state.DoS(level, false, chRejectCode, strRejectReason, false, strDebugMessage)`; `state.Invalid` is level 0 -/
  | dos (level : Nat) (chRejectCode : UInt8) (strRejectReason strDebugMessage : String)
  /-- a `std::runtime_error` thrown -/
  | runtimeError (what : String)
  /-- a failed `assert` -/
  | assertFailed
  /-- a signed overflow, which C++ leaves undefined -/
  | undefined
  deriving Repr, DecidableEq

/-- A value that C++ may leave undefined. -/
def orUndefined {α : Type} : Option α → Except TxCheckError α
  | some a => .ok a
  | none => .error .undefined

@[simp] theorem orUndefined_some {α : Type} (a : α) : orUndefined (some a) = .ok a := rfl

/-- `%s` of a C string of ASCII bytes. -/
def asciiString (bytes : List UInt8) : String := String.ofList (bytes.map fun b => Char.ofNat b.toNat)

namespace Coins

/-- The fields of `CTransaction` that the coins view reads: the outpoints its
inputs spend, its outputs and its hash. -/
structure CTransaction where
  vin : List COutPoint
  vout : List CTxOut
  hash : Uint256

namespace CTransaction

/-- `CTransaction::IsCoinBase`: a single input, which names the null
outpoint. -/
def isCoinBase (tx : CTransaction) : Bool :=
  match tx.vin with
  | [prevout] => prevout.isNull
  | _ => false

/-- The body of the loop of `CTransaction::GetValueOut`. -/
def getValueOutStep (nValueOut : Int) (out : CTxOut) : Except TxCheckError Int := do
  let nValueOut ← orUndefined (checkedInt64 (nValueOut + out.nValue))
  if !moneyRange out.nValue || !moneyRange nValueOut then
    throw (.runtimeError "CTransaction::GetValueOut(): value out of range")
  pure nValueOut

/-- `CTransaction::GetValueOut`: the sum of the outputs' amounts, throwing
once an amount or the sum leaves the money range. -/
def getValueOut (tx : CTransaction) : Except TxCheckError Int := tx.vout.foldlM getValueOutStep 0

/-- A step of `GetValueOut` that succeeds leaves the sum in range. -/
theorem getValueOutStep_range {nValueOut r : Int} {out : CTxOut} (h : getValueOutStep nValueOut out = .ok r) :
    0 ≤ r ∧ r ≤ maxMoney := by
  unfold getValueOutStep at h
  cases hc : checkedInt64 (nValueOut + out.nValue) with
  | none => simp [hc, orUndefined] at h
  | some s =>
    simp only [hc, orUndefined_some, Except.ok_bind] at h
    split_ifs at h with hr
    · simp at h
    · simp only [Bool.or_eq_true, Bool.not_eq_true', not_or, Bool.not_eq_false, moneyRange_eq_true_iff] at hr
      cases h
      exact hr.2

/-- A successful `GetValueOut` returns an amount in range. -/
theorem getValueOut_range {tx : CTransaction} {nValueOut : Int} (h : tx.getValueOut = .ok nValueOut) :
    0 ≤ nValueOut ∧ nValueOut ≤ maxMoney := by
  have hloop : ∀ (L : List CTxOut) (acc : Int), 0 ≤ acc ∧ acc ≤ maxMoney →
      L.foldlM getValueOutStep acc = .ok nValueOut → 0 ≤ nValueOut ∧ nValueOut ≤ maxMoney := by
    intro L
    induction L with
    | nil =>
      intro acc hacc h
      cases h
      exact hacc
    | cons out L ih =>
      intro acc _ h
      rw [List.foldlM_cons] at h
      obtain ⟨r, hr, hrest⟩ := Except.bind_eq_ok_iff.mp h
      exact ih r (getValueOutStep_range hr) hrest
  exact hloop tx.vout 0 ⟨le_rfl, by positivity⟩ h

end CTransaction

section view

variable (inputs : COutPoint → Option Coin)

/-- `CCoinsViewCache::HaveInputs`: a coinbase has nothing to look up; any
other transaction needs an unspent coin at each input. -/
def haveInputs (tx : CTransaction) : Bool :=
  tx.isCoinBase || tx.vin.all fun prevout => (inputs prevout).isSome

/-- `GetSpendHeight`: one above the height of the view's best block in
`mapBlockIndex`; a block missing there, or a null entry, throws. -/
def getSpendHeight (mapBlockIndex : Uint256 → Option (Option Nat)) (bestBlock : Uint256) : Except TxCheckError Int :=
  match mapBlockIndex bestBlock with
  | some (some nHeight) => .ok ((nHeight : Int) + 1)
  | some none => throw (.runtimeError "GetSpendHeight(): mapBlockIndex contains null block")
  | none => throw (.runtimeError "GetSpendHeight(): best block does not exist")

/-- The spend height in the loop of `Consensus::CheckTxInputs`: read at the
first input, kept after. -/
def readSpendHeight (spendHeight : Except TxCheckError Int) (nSpendHeight : Int) : Except TxCheckError Int :=
  if nSpendHeight = -1 then spendHeight else pure nSpendHeight

/-- The body of the loop of `Consensus::CheckTxInputs`, on the value in so far
and the spend height, `-1` until the first input reads it. -/
def checkTxInput (spendHeight : Except TxCheckError Int) : Int × Int → COutPoint → Except TxCheckError (Int × Int)
  | (nValueIn, nSpendHeight), prevout => do
    -- `GetCoin` copies the coin, or leaves `Coin()` where the view has none
    let coin := (inputs prevout).getD Coin.empty
    if coin.isSpent then throw .assertFailed
    let nSpendHeight ← readSpendHeight spendHeight nSpendHeight
    if coin.fCoinBase then
      let nCoinOutValue ← orUndefined (coin.out.getValueWithInterest coin.nHeight nSpendHeight)
      let nCoinHeight : Int := coin.nHeight
      if nSpendHeight - nCoinHeight < coinbaseMaturity then
        throw (.dos 0 rejectInvalid "bad-txns-premature-spend-of-coinbase"
          ("tried to spend coinbase at depth " ++ toString (nSpendHeight - nCoinHeight)))
      let nValueIn ← orUndefined (checkedInt64 (nValueIn + nCoinOutValue))
      if !moneyRange nCoinOutValue || !moneyRange nValueIn then
        throw (.dos 100 rejectInvalid "bad-txns-inputvalues-outofrange" "")
      pure (nValueIn, nSpendHeight)
    else
      let nValue ← orUndefined (coin.out.getValueWithInterest coin.nHeight nSpendHeight)
      let nValueIn ← orUndefined (checkedInt64 (nValueIn + nValue))
      -- here the bare amount is checked, not the value with interest
      if !moneyRange coin.out.nValue || !moneyRange nValueIn then
        throw (.dos 100 rejectInvalid "bad-txns-inputvalues-outofrange" "")
      pure (nValueIn, nSpendHeight)

/-- `Consensus::CheckTxInputs`. `GetValueOut` is computed where the source
calls it first; its later calls return the same. -/
def checkTxInputs (mapBlockIndex : Uint256 → Option (Option Nat)) (bestBlock : Uint256) (tx : CTransaction) :
    Except TxCheckError Unit := do
  if !haveInputs inputs tx then throw (.dos 0 0 "" "Inputs unavailable")
  let (nValueIn, _) ← tx.vin.foldlM (checkTxInput inputs (getSpendHeight mapBlockIndex bestBlock)) (0, -1)
  let nValueOut ← tx.getValueOut
  if nValueIn < nValueOut then
    let strDebugMessage ← orUndefined do
      let strIn ← Money.formatMoney nValueIn
      let strOut ← Money.formatMoney nValueOut
      pure ("value in (" ++ asciiString strIn ++ ") < value out (" ++ asciiString strOut ++ ")")
    throw (.dos 100 rejectInvalid "bad-txns-in-belowout" strDebugMessage)
  let nTxFee := nValueIn - nValueOut
  if nTxFee < 0 then throw (.dos 100 rejectInvalid "bad-txns-fee-negative" "")
  let nFees : Int := 0 + nTxFee
  if !moneyRange nFees then throw (.dos 100 rejectInvalid "bad-txns-fee-outofrange" "")
  pure ()

/-- The body of the loop of `CCoinsViewCache::GetValueIn`. -/
def getValueInStep (valuationHeight : Int) (nValueIn : Int) (prevout : COutPoint) : Option Int := do
  -- `_AccessCoin`: the coin, or `Coin()` where the view has none
  let coin := (inputs prevout).getD Coin.empty
  let outTX := coin.out
  let nValue ← outTX.getValueWithInterest coin.nHeight valuationHeight
  checkedInt64 (nValueIn + nValue)

/-- `CCoinsViewCache::GetValueIn`: nothing for a coinbase, else the inputs'
values with interest at `valuationHeight`. -/
def getValueIn (tx : CTransaction) (valuationHeight : Int) : Option Int :=
  if tx.isCoinBase then some 0 else tx.vin.foldlM (getValueInStep inputs valuationHeight) 0

end view

/-- `AddCoins`: a coin at each output, with `possible_overwrite` set for a
coinbase. -/
def addCoins (tx : CTransaction) (nHeight : Nat) : List (CoinsOp COutPoint) :=
  tx.vout.zipIdx.map fun (out, i) =>
    .addCoin ⟨tx.hash, UInt32.ofNat i⟩ ⟨out, tx.isCoinBase, nHeight⟩ tx.isCoinBase

/-- `SpendCoins`: the coin of each input spent; a coinbase spends none. -/
def spendCoins (tx : CTransaction) : List (CoinsOp COutPoint) :=
  if tx.isCoinBase then [] else tx.vin.map .spendCoin

/-- `UpdateCoins`: the inputs spent, then the outputs added. -/
def updateCoins (tx : CTransaction) (nHeight : Nat) : List (CoinsOp COutPoint) := spendCoins tx ++ addCoins tx nHeight

/-! ### What `CheckTxInputs` accepts -/

section spec

variable (inputs : COutPoint → Option Coin)

/-- The value of a coin at the spend height, with its interest. -/
def inputValue (coin : Coin) (nSpendHeight : Int) : Int :=
  valueAfter coin.out.nValue (interestAge coin.nHeight nSpendHeight)

/-- The value of an input: its coin's, or nothing where the view has none. -/
def valueOfInput (nSpendHeight : Int) (prevout : COutPoint) : Int :=
  ((inputs prevout).map (inputValue · nSpendHeight)).getD 0

/-- The inputs' values. -/
def valueIn (nSpendHeight : Int) (vin : List COutPoint) : Int := (vin.map (valueOfInput inputs nSpendHeight)).sum

/-- The inputs' bare amounts, nothing for one the view lacks. -/
def amountIn (vin : List COutPoint) : Int := (vin.map fun prevout => ((inputs prevout).map (·.out.nValue)).getD 0).sum

/-- An input that the loop accepts: an unspent coin, mature if a
coinbase's. -/
def InputOk (nSpendHeight : Int) (prevout : COutPoint) : Prop :=
  ∃ coin, inputs prevout = some coin ∧ (coin.fCoinBase = true → coinbaseMaturity ≤ nSpendHeight - coin.nHeight)

/-- The view's coins at `vin` have amounts in `[0, MAX_MONEY]`, as the outputs
of every accepted transaction do. -/
def AmountsInRange (vin : List COutPoint) : Prop :=
  ∀ prevout ∈ vin, ∀ coin, inputs prevout = some coin → 0 ≤ coin.out.nValue ∧ coin.out.nValue ≤ maxMoney

/-- What `CheckTxInputs` asks of a transaction spent at `nSpendHeight`. -/
structure InputsAcceptable (nSpendHeight : Int) (tx : CTransaction) : Prop where
  /-- every input is there, and mature if a coinbase's -/
  inputs_ok : ∀ prevout ∈ tx.vin, InputOk inputs nSpendHeight prevout
  /-- the inputs are worth at most `MAX_MONEY` with interest -/
  valueIn_le : valueIn inputs nSpendHeight tx.vin ≤ maxMoney
  /-- the outputs are in range and worth at most the inputs -/
  valueOut_le : ∃ nValueOut, tx.getValueOut = .ok nValueOut ∧ nValueOut ≤ valueIn inputs nSpendHeight tx.vin

theorem haveInputs_of_inputOk {nSpendHeight : Int} {tx : CTransaction}
    (hall : ∀ prevout ∈ tx.vin, InputOk inputs nSpendHeight prevout) : haveInputs inputs tx = true := by
  simp only [haveInputs, Bool.or_eq_true, List.all_eq_true]
  right
  intro prevout hp
  obtain ⟨coin, hc, -⟩ := hall prevout hp
  rw [hc]
  rfl

theorem valueOfInput_nonneg (nSpendHeight : Int) (prevout : COutPoint) :
    0 ≤ valueOfInput inputs nSpendHeight prevout := by
  unfold valueOfInput
  cases inputs prevout with
  | none => exact le_rfl
  | some coin => exact Int.natCast_nonneg _

theorem valueOfInput_of_eq_some {prevout : COutPoint} {coin : Coin} (hi : inputs prevout = some coin)
    (nSpendHeight : Int) : valueOfInput inputs nSpendHeight prevout = inputValue coin nSpendHeight := by
  rw [valueOfInput, hi]
  rfl

theorem isSpent_eq_false_of_ne {coin : Coin} (h : coin.out.nValue ≠ -1) : coin.isSpent = false := by
  simp only [Coin.isSpent, beq_eq_false_iff_ne]
  exact h

@[simp] theorem valueIn_nil (nSpendHeight : Int) : valueIn inputs nSpendHeight [] = 0 := rfl

@[simp] theorem valueIn_cons (nSpendHeight : Int) (prevout : COutPoint) (vin : List COutPoint) :
    valueIn inputs nSpendHeight (prevout :: vin) = valueOfInput inputs nSpendHeight prevout + valueIn inputs nSpendHeight vin := by
  rw [valueIn, List.map_cons, List.sum_cons, ← valueIn]

theorem valueIn_nonneg (nSpendHeight : Int) : ∀ vin, 0 ≤ valueIn inputs nSpendHeight vin
  | [] => le_rfl
  | prevout :: vin => by
    rw [valueIn_cons]
    have := valueOfInput_nonneg inputs nSpendHeight prevout
    have := valueIn_nonneg nSpendHeight vin
    omega

theorem getValueWithInterest_eq_inputValue {coin : Coin} (h0 : 0 ≤ coin.out.nValue) (hmax : coin.out.nValue ≤ maxMoney)
    (nSpendHeight : Int) : coin.out.getValueWithInterest coin.nHeight nSpendHeight = some (inputValue coin nSpendHeight) :=
  getInterest_eq_valueAfter h0 hmax _ _

theorem inputValue_bounds {coin : Coin} (h0 : 0 ≤ coin.out.nValue) (nSpendHeight : Int) :
    coin.out.nValue ≤ inputValue coin nSpendHeight ∧ 9 * inputValue coin nSpendHeight ≤ 10 * coin.out.nValue :=
  valueAfter_bounds _ h0 (interestAge_le _ _)

/-- With interest, the inputs are worth at least their amounts and at most a
ninth more. -/
theorem valueIn_bounds (nSpendHeight : Int) :
    ∀ vin, AmountsInRange inputs vin →
      amountIn inputs vin ≤ valueIn inputs nSpendHeight vin ∧ 9 * valueIn inputs nSpendHeight vin ≤ 10 * amountIn inputs vin
  | [], _ => ⟨le_rfl, le_rfl⟩
  | prevout :: vin, hrange => by
    obtain ⟨ih₁, ih₂⟩ := valueIn_bounds nSpendHeight vin fun p hp => hrange p (List.mem_cons_of_mem _ hp)
    have hcons : amountIn inputs (prevout :: vin) = ((inputs prevout).map (·.out.nValue)).getD 0 + amountIn inputs vin := by
      rw [amountIn, List.map_cons, List.sum_cons, ← amountIn]
    rw [hcons, valueIn_cons]
    cases hi : inputs prevout with
    | none =>
      simp only [valueOfInput, hi, Option.map_none, Option.getD_none]
      omega
    | some coin =>
      obtain ⟨h₁, h₂⟩ := inputValue_bounds (hrange prevout List.mem_cons_self coin hi).1 nSpendHeight
      rw [valueOfInput_of_eq_some inputs hi, Option.map_some, Option.getD_some]
      omega

/-- Sums of amounts and values with interest fit `int64_t`. -/
theorem checkedInt64_of_le {v : Int} (h0 : 0 ≤ v) (hv : v ≤ 3 * maxMoney) : checkedInt64 v = some v := by
  have hmoney : (maxMoney : Int) = 100000000000000000 := rfl
  rw [checkedInt64, if_pos (by unfold IsInt64 int64Min int64Max; omega)]

variable {inputs} {spendHeight : Except TxCheckError Int} {h : Int}

/-- One input, once the spend height reads `h`: the loop takes it when its
coin is there and mature and the sum stays in range. -/
theorem checkTxInput_eq_ok_iff (hsh : spendHeight = .ok h) (hh : h ≠ -1) {v s : Int} (hv0 : 0 ≤ v)
    (hvmax : v ≤ maxMoney) (hs : s = -1 ∨ s = h) {prevout : COutPoint}
    (hrange : ∀ coin, inputs prevout = some coin → 0 ≤ coin.out.nValue ∧ coin.out.nValue ≤ maxMoney)
    {r : Int × Int} :
    checkTxInput inputs spendHeight (v, s) prevout = .ok r ↔
      InputOk inputs h prevout ∧ v + valueOfInput inputs h prevout ≤ maxMoney ∧
        r = (v + valueOfInput inputs h prevout, h) := by
  have hread : readSpendHeight spendHeight s = .ok h := by
    rcases hs with rfl | rfl
    · rw [readSpendHeight, if_pos rfl, hsh]
    · rw [readSpendHeight, if_neg hh]
      rfl
  cases hi : inputs prevout with
  | none =>
    simp [checkTxInput, hi, InputOk]
  | some coin =>
    obtain ⟨h0, hmax⟩ := hrange coin hi
    have hspent : coin.isSpent = false := isSpent_eq_false_of_ne (by omega)
    obtain ⟨hlo, hhi⟩ := inputValue_bounds h0 h
    have hsum : checkedInt64 (v + inputValue coin h) = some (v + inputValue coin h) :=
      checkedInt64_of_le (by omega) (by omega)
    have hval := valueOfInput_of_eq_some inputs hi h
    simp only [checkTxInput, hi, Option.getD_some, hspent, hread, getValueWithInterest_eq_inputValue h0 hmax,
      orUndefined_some, hsum, Bool.false_eq_true, if_false, Except.ok_bind, hval]
    have hInputOk : InputOk inputs h prevout ↔ (coin.fCoinBase = true → coinbaseMaturity ≤ h - coin.nHeight) := by
      simp [InputOk, hi]
    rw [hInputOk]
    cases hcb : coin.fCoinBase
    · simp only [Bool.false_eq_true, if_false, Except.throw_bind, Except.ite_throw_eq_ok_iff, Bool.or_eq_true,
        Bool.not_eq_true', ← Bool.not_eq_true, moneyRange_eq_true_iff, Except.pure_eq_ok_iff]
      constructor
      · rintro ⟨hc, rfl⟩
        exact ⟨False.elim, by omega, rfl⟩
      · rintro ⟨-, hc, rfl⟩
        exact ⟨by omega, rfl⟩
    · simp only [if_true, Except.throw_bind, Except.ite_throw_eq_ok_iff, Bool.or_eq_true, Bool.not_eq_true',
        ← Bool.not_eq_true, moneyRange_eq_true_iff, Except.pure_eq_ok_iff]
      constructor
      · rintro ⟨hage, hc, rfl⟩
        exact ⟨fun _ => by omega, by omega, rfl⟩
      · rintro ⟨hage, hc, rfl⟩
        exact ⟨by have := hage trivial; omega, by omega, rfl⟩

/-- The loop over the inputs, from a value in range and a spend height read
as `h` or still to read: it ends with the sum exactly when every input is
there and mature and the sum stays within `MAX_MONEY`. -/
theorem foldlM_checkTxInput_ok_iff (hsh : spendHeight = .ok h) (hh : h ≠ -1) :
    ∀ (vin : List COutPoint) {v s w : Int}, 0 ≤ v → v ≤ maxMoney → (s = -1 ∨ s = h) → AmountsInRange inputs vin →
      ((∃ s', vin.foldlM (checkTxInput inputs spendHeight) (v, s) = .ok (w, s')) ↔
        (∀ prevout ∈ vin, InputOk inputs h prevout) ∧ v + valueIn inputs h vin ≤ maxMoney ∧
          w = v + valueIn inputs h vin)
  | [], v, s, w, _, hvmax, _, _ => by
    simp only [List.foldlM_nil, Except.pure_eq_ok_iff, Prod.mk.injEq, List.not_mem_nil, IsEmpty.forall_iff,
      implies_true, valueIn_nil, add_zero, true_and, exists_and_left, exists_eq', and_true]
    constructor
    · rintro rfl
      exact ⟨hvmax, rfl⟩
    · rintro ⟨-, rfl⟩
      rfl
  | prevout :: vin, v, s, w, hv0, hvmax, hs, hrange => by
    have hval := valueOfInput_nonneg inputs h prevout
    have hrest := valueIn_nonneg inputs h vin
    have hstep := fun r => checkTxInput_eq_ok_iff hsh hh hv0 hvmax hs (hrange prevout List.mem_cons_self) (r := r)
    rw [List.foldlM_cons, valueIn_cons, List.forall_mem_cons]
    cases hc : checkTxInput inputs spendHeight (v, s) prevout with
    | error e =>
      have hbad : ¬(InputOk inputs h prevout ∧ v + valueOfInput inputs h prevout ≤ maxMoney) := fun hgood =>
        by cases hc.symm.trans ((hstep _).mpr ⟨hgood.1, hgood.2, rfl⟩)
      simp only [Except.error_bind, reduceCtorEq, exists_false, false_iff]
      rintro ⟨⟨hok, -⟩, hle, -⟩
      exact hbad ⟨hok, by omega⟩
    | ok r =>
      obtain ⟨hok, hle, rfl⟩ := (hstep r).mp hc
      rw [Except.ok_bind, foldlM_checkTxInput_ok_iff hsh hh vin (by omega) (by omega) (Or.inr rfl)
        fun p hp => hrange p (List.mem_cons_of_mem _ hp)]
      constructor
      · rintro ⟨hall, hsum, rfl⟩
        exact ⟨⟨hok, hall⟩, by omega, by omega⟩
      · rintro ⟨⟨-, hall⟩, hsum, rfl⟩
        exact ⟨hall, by omega, by omega⟩

section accept

variable {mapBlockIndex : Uint256 → Option (Option Nat)} {bestBlock : Uint256} {nHeight : Nat}

theorem getSpendHeight_eq (hbest : mapBlockIndex bestBlock = some (some nHeight)) :
    getSpendHeight mapBlockIndex bestBlock = .ok ((nHeight : Int) + 1) := by
  rw [getSpendHeight, hbest]

/-- A transaction that `CheckTxInputs` accepts meets its conditions. -/
theorem InputsAcceptable.of_checkTxInputs (hbest : mapBlockIndex bestBlock = some (some nHeight)) (tx : CTransaction)
    (hrange : AmountsInRange inputs tx.vin) (hok : checkTxInputs inputs mapBlockIndex bestBlock tx = .ok ()) :
    InputsAcceptable inputs (nHeight + 1) tx := by
  cases hhave : haveInputs inputs tx
  · simp [checkTxInputs, hhave] at hok
  simp only [checkTxInputs, hhave, Bool.not_true, Bool.false_eq_true, if_false] at hok
  obtain ⟨⟨w, s'⟩, hfold, hrest⟩ := Except.bind_eq_ok_iff.mp hok
  obtain ⟨hall, hV, rfl⟩ := (foldlM_checkTxInput_ok_iff (getSpendHeight_eq hbest) (by omega) tx.vin le_rfl
    (by positivity) (Or.inl rfl) hrange).mp ⟨s', hfold⟩
  obtain ⟨nValueOut, hout, hchecks⟩ := Except.bind_eq_ok_iff.mp hrest
  refine ⟨hall, by simpa using hV, nValueOut, hout, ?_⟩
  by_contra hlt
  rw [if_pos (by simpa using hlt)] at hchecks
  obtain ⟨_, -, hthrow⟩ := Except.bind_eq_ok_iff.mp hchecks
  simp at hthrow

/-- A transaction that meets the conditions passes `CheckTxInputs`. -/
theorem checkTxInputs_eq_ok_of_acceptable (hbest : mapBlockIndex bestBlock = some (some nHeight)) (tx : CTransaction)
    (hrange : AmountsInRange inputs tx.vin) (hacc : InputsAcceptable inputs (nHeight + 1) tx) :
    checkTxInputs inputs mapBlockIndex bestBlock tx = .ok () := by
  obtain ⟨hall, hV, nValueOut, hout, hle⟩ := hacc
  obtain ⟨s', hfold⟩ := (foldlM_checkTxInput_ok_iff (w := 0 + valueIn inputs (nHeight + 1) tx.vin)
    (getSpendHeight_eq hbest) (by omega) tx.vin le_rfl (by positivity) (Or.inl rfl) hrange).mpr
    ⟨hall, by simpa using hV, rfl⟩
  have hV0 := valueIn_nonneg inputs (nHeight + 1) tx.vin
  obtain ⟨ho0, homax⟩ := CTransaction.getValueOut_range hout
  simp only [checkTxInputs, haveInputs_of_inputOk inputs hall, Bool.not_true, Bool.false_eq_true, if_false, hfold,
    Except.ok_bind, hout]
  rw [if_neg (by omega), if_neg (by omega),
    if_neg (by simp only [Bool.not_eq_true', Bool.not_eq_false, moneyRange_eq_true_iff]; omega)]
  rfl

/-- `CheckTxInputs`, over a view whose coins have amounts in range, accepts
a transaction exactly when its inputs are there and mature, worth at most
`MAX_MONEY` with the interest of the spend height, and cover its outputs:
it neither overflows nor fails its `assert`, and its fee checks never
refuse. -/
theorem checkTxInputs_eq_ok_iff (hbest : mapBlockIndex bestBlock = some (some nHeight)) (tx : CTransaction)
    (hrange : AmountsInRange inputs tx.vin) :
    checkTxInputs inputs mapBlockIndex bestBlock tx = .ok () ↔ InputsAcceptable inputs (nHeight + 1) tx :=
  ⟨InputsAcceptable.of_checkTxInputs hbest tx hrange, checkTxInputs_eq_ok_of_acceptable hbest tx hrange⟩

/-- A view with one coin of 50 coins made at height 90, and a transaction
that spends it into an output of 50 coins in the block after 100. -/
def sampleOutPoint : COutPoint := ⟨default, 0⟩

def sampleInputs (prevout : COutPoint) : Option Coin :=
  if prevout = sampleOutPoint then some ⟨⟨5000000000, []⟩, false, 90⟩ else none

def sampleTx : CTransaction := ⟨[sampleOutPoint], [⟨5000000000, []⟩], default⟩

def sampleBlockIndex (_ : Uint256) : Option (Option Nat) := some (some 100)

theorem sampleInputs_amountsInRange : AmountsInRange sampleInputs sampleTx.vin := by
  intro prevout hp coin hc
  simp only [sampleTx, List.mem_singleton] at hp
  subst hp
  rw [sampleInputs, if_pos rfl] at hc
  cases hc
  decide

theorem checkTxInputs_eq_ok_iff_sample :
    sampleBlockIndex default = some (some 100) ∧ AmountsInRange sampleInputs sampleTx.vin ∧
      (checkTxInputs sampleInputs sampleBlockIndex default sampleTx = .ok () ↔
        InputsAcceptable sampleInputs (100 + 1) sampleTx) :=
  ⟨rfl, sampleInputs_amountsInRange, checkTxInputs_eq_ok_iff rfl sampleTx sampleInputs_amountsInRange⟩

/-- The sample spends a mature coin within range and pays out no more than
it is worth. -/
theorem sampleTx_checkTxInputs : checkTxInputs sampleInputs sampleBlockIndex default sampleTx = .ok () := by
  refine checkTxInputs_eq_ok_of_acceptable rfl sampleTx sampleInputs_amountsInRange ⟨?_, by decide, ⟨5000000000, rfl, by decide⟩⟩
  intro prevout hp
  simp only [sampleTx, List.mem_singleton] at hp
  subst hp
  exact ⟨_, if_pos rfl, fun h => absurd h Bool.false_ne_true⟩

/-- Interest lets a transaction pay out at most a ninth more than the bare
amounts of the coins it spends. -/
theorem checkTxInputs_valueOut_le (hbest : mapBlockIndex bestBlock = some (some nHeight)) (tx : CTransaction)
    (hrange : AmountsInRange inputs tx.vin) (hok : checkTxInputs inputs mapBlockIndex bestBlock tx = .ok ()) :
    ∃ nValueOut, tx.getValueOut = .ok nValueOut ∧ 9 * nValueOut ≤ 10 * amountIn inputs tx.vin := by
  obtain ⟨-, -, nValueOut, hout, hle⟩ := InputsAcceptable.of_checkTxInputs hbest tx hrange hok
  obtain ⟨-, hninth⟩ := valueIn_bounds inputs (nHeight + 1) tx.vin hrange
  exact ⟨nValueOut, hout, by omega⟩

theorem checkTxInputs_valueOut_le_sample :
    sampleBlockIndex default = some (some 100) ∧ AmountsInRange sampleInputs sampleTx.vin ∧
      checkTxInputs sampleInputs sampleBlockIndex default sampleTx = .ok () ∧
      ∃ nValueOut, sampleTx.getValueOut = .ok nValueOut ∧ 9 * nValueOut ≤ 10 * amountIn sampleInputs sampleTx.vin :=
  ⟨rfl, sampleInputs_amountsInRange, sampleTx_checkTxInputs,
    checkTxInputs_valueOut_le rfl sampleTx sampleInputs_amountsInRange sampleTx_checkTxInputs⟩

theorem getValueInStep_eq {valuationHeight nValueIn : Int} {prevout : COutPoint} {coin : Coin}
    (hi : inputs prevout = some coin) (h0 : 0 ≤ coin.out.nValue) (hmax : coin.out.nValue ≤ maxMoney)
    (hv0 : 0 ≤ nValueIn) (hv : nValueIn ≤ maxMoney) :
    getValueInStep inputs valuationHeight nValueIn prevout =
      some (nValueIn + valueOfInput inputs valuationHeight prevout) := by
  obtain ⟨hlo, hhi⟩ := inputValue_bounds h0 valuationHeight
  rw [valueOfInput_of_eq_some inputs hi, getValueInStep, hi, Option.getD_some, getValueWithInterest_eq_inputValue h0 hmax, Option.bind_eq_bind,
    Option.bind_some, checkedInt64_of_le (by omega) (by omega)]

/-- The loop of `GetValueIn` over inputs that are all there adds up their
values with interest. -/
theorem foldlM_getValueInStep (valuationHeight : Int) :
    ∀ (vin : List COutPoint) {acc : Int}, 0 ≤ acc → acc + valueIn inputs valuationHeight vin ≤ maxMoney →
      AmountsInRange inputs vin → (∀ prevout ∈ vin, ∃ coin, inputs prevout = some coin) →
      vin.foldlM (getValueInStep inputs valuationHeight) acc = some (acc + valueIn inputs valuationHeight vin)
  | [], acc, _, _, _, _ => by rw [List.foldlM_nil, valueIn_nil, add_zero]; rfl
  | prevout :: vin, acc, hacc, hle, hrange, hthere => by
    obtain ⟨coin, hi⟩ := hthere prevout List.mem_cons_self
    have hval := valueOfInput_nonneg inputs valuationHeight prevout
    have hrest := valueIn_nonneg inputs valuationHeight vin
    rw [valueIn_cons] at hle ⊢
    obtain ⟨h0, hmax⟩ := hrange prevout List.mem_cons_self coin hi
    rw [List.foldlM_cons, getValueInStep_eq hi h0 hmax hacc (by omega), Option.bind_eq_bind, Option.bind_some,
      foldlM_getValueInStep valuationHeight vin (by omega) (by omega) (fun p hp => hrange p (List.mem_cons_of_mem _ hp))
        fun p hp => hthere p (List.mem_cons_of_mem _ hp), add_assoc]

/-- At admission, `GetValueIn` at the next height reads a transaction that
`CheckTxInputs` accepts as the loop of `CheckTxInputs` does: the fee
the mempool charges is its fee, in `[0, MAX_MONEY]`. -/
theorem getValueIn_of_checkTxInputs (hbest : mapBlockIndex bestBlock = some (some nHeight)) (tx : CTransaction)
    (hrange : AmountsInRange inputs tx.vin) (hcb : tx.isCoinBase = false)
    (hok : checkTxInputs inputs mapBlockIndex bestBlock tx = .ok ()) :
    ∃ nValueOut, getValueIn inputs tx (nHeight + 1) = some (valueIn inputs (nHeight + 1) tx.vin) ∧
      tx.getValueOut = .ok nValueOut ∧ 0 ≤ valueIn inputs (nHeight + 1) tx.vin - nValueOut ∧
      valueIn inputs (nHeight + 1) tx.vin - nValueOut ≤ maxMoney := by
  obtain ⟨hall, hV, nValueOut, hout, hle⟩ := InputsAcceptable.of_checkTxInputs hbest tx hrange hok
  obtain ⟨ho0, -⟩ := CTransaction.getValueOut_range hout
  have hthere : ∀ prevout ∈ tx.vin, ∃ coin, inputs prevout = some coin := fun p hp =>
    let ⟨coin, hc, _⟩ := hall p hp
    ⟨coin, hc⟩
  refine ⟨nValueOut, ?_, hout, by omega, by omega⟩
  rw [getValueIn, if_neg (by simp [hcb]), foldlM_getValueInStep _ tx.vin le_rfl (by simpa using hV) hrange hthere,
    zero_add]

theorem getValueIn_of_checkTxInputs_sample :
    sampleBlockIndex default = some (some 100) ∧ AmountsInRange sampleInputs sampleTx.vin ∧
      sampleTx.isCoinBase = false ∧ checkTxInputs sampleInputs sampleBlockIndex default sampleTx = .ok () ∧
      ∃ nValueOut, getValueIn sampleInputs sampleTx (100 + 1) = some (valueIn sampleInputs (100 + 1) sampleTx.vin) ∧
        sampleTx.getValueOut = .ok nValueOut ∧ 0 ≤ valueIn sampleInputs (100 + 1) sampleTx.vin - nValueOut ∧
        valueIn sampleInputs (100 + 1) sampleTx.vin - nValueOut ≤ maxMoney :=
  ⟨rfl, sampleInputs_amountsInRange, by decide, sampleTx_checkTxInputs,
    getValueIn_of_checkTxInputs rfl sampleTx sampleInputs_amountsInRange (by decide) sampleTx_checkTxInputs⟩

end accept

end spec

/-! ### `UpdateCoins` on a chain of caches -/

section update

open Refinement

/-- The map after adding the outputs `outs`, numbered from `k`, of the
transaction with hash `hash`: a coin at each output that can be spent. -/
def afterOutputs (b : COutPoint → Option Coin) (hash : Uint256) (fCoinbase : Bool) (nHeight : Nat) (outs : List CTxOut)
    (k : Nat) (o : COutPoint) : Option Coin :=
  if o.hash = hash ∧ k ≤ o.n.toNat then
    (outs[o.n.toNat - k]?).elim (b o) fun out =>
      if isUnspendable out.scriptPubKey then b o else some ⟨out, fCoinbase, nHeight⟩
  else b o

/-- The UTXO map after a transaction connected at `nHeight`: the coins of its
inputs gone, unless it is a coinbase, then its outputs added. -/
def connectTx (a : COutPoint → Option Coin) (tx : CTransaction) (nHeight : Nat) : COutPoint → Option Coin :=
  afterOutputs (fun o => if tx.isCoinBase = false ∧ o ∈ tx.vin then none else a o) tx.hash tx.isCoinBase nHeight
    tx.vout 0

theorem arun_map_spendCoin (vin : List COutPoint) :
    ∀ (a : COutPoint → Option Coin) (o : COutPoint),
      arun utxoStep a (vin.map .spendCoin) o = if o ∈ vin then none else a o := by
  induction vin with
  | nil =>
    intro a o
    rfl
  | cons x vin ih =>
    intro a o
    show arun utxoStep (utxoStep a (.spendCoin x)) (vin.map .spendCoin) o = _
    rw [ih]
    by_cases hin : o ∈ vin
    · simp [hin]
    · by_cases hx : o = x
      · subst hx
        simp [utxoStep]
      · simp [hin, hx, utxoStep]

theorem validRun_map_spendCoin (vin : List COutPoint) :
    ∀ a : COutPoint → Option Coin, ValidRun utxoStep CoinsOp.Valid a (vin.map .spendCoin) := by
  induction vin with
  | nil => exact fun _ => trivial
  | cons x vin ih => exact fun a => ⟨trivial, ih _⟩

theorem arun_spendCoins (a : COutPoint → Option Coin) (tx : CTransaction) :
    arun utxoStep a (spendCoins tx) = fun o => if tx.isCoinBase = false ∧ o ∈ tx.vin then none else a o := by
  funext o
  unfold spendCoins
  cases tx.isCoinBase
  · simp [arun_map_spendCoin]
  · rfl

section outputs

variable {f : CTxOut × Nat → CoinsOp COutPoint} {hash : Uint256} {fCoinbase : Bool} {nHeight : Nat}

/-- Adding the output numbered `k` changes the map at its outpoint only. -/
theorem utxoStep_addCoin_ne (b : COutPoint → Option Coin) (out : CTxOut) {k : Nat} {o : COutPoint}
    (ho : o ≠ ⟨hash, UInt32.ofNat k⟩) :
    utxoStep b (.addCoin ⟨hash, UInt32.ofNat k⟩ ⟨out, fCoinbase, nHeight⟩ fCoinbase) o = b o := by
  simp only [utxoStep]
  split_ifs
  · rfl
  · exact Function.update_of_ne ho _ _

theorem toNat_uint32_ofNat {k : Nat} (hk : k < 2 ^ 32) : (UInt32.ofNat k).toNat = k := by
  rw [UInt32.toNat_ofNat', Nat.mod_eq_of_lt hk]

theorem outPoint_eq_of_toNat {o : COutPoint} {k : Nat} (hk : k < 2 ^ 32) (hh : o.hash = hash) (hn : o.n.toNat = k) :
    o = ⟨hash, UInt32.ofNat k⟩ := by
  obtain ⟨h', n⟩ := o
  simp only at hh hn
  subst hh
  rw [UInt32.toNat_inj.mp (hn.trans (toNat_uint32_ofNat hk).symm)]

theorem ne_outPoint_of_toNat_ne {o : COutPoint} {k : Nat} (hk : k < 2 ^ 32) (hn : o.n.toNat ≠ k) :
    o ≠ ⟨hash, UInt32.ofNat k⟩ := fun h => hn (by rw [h, toNat_uint32_ofNat hk])

theorem arun_addOutputs (hf : ∀ out i, f (out, i) = .addCoin ⟨hash, UInt32.ofNat i⟩ ⟨out, fCoinbase, nHeight⟩ fCoinbase) :
    ∀ (outs : List CTxOut) (k : Nat) (b : COutPoint → Option Coin), k + outs.length ≤ 2 ^ 32 →
      arun utxoStep b ((outs.zipIdx k).map f) = afterOutputs b hash fCoinbase nHeight outs k := by
  intro outs
  induction outs with
  | nil =>
    intro k b _
    funext o
    simp [arun, afterOutputs]
  | cons out outs ih =>
    intro k b hk
    simp only [List.length_cons] at hk
    rw [List.zipIdx_cons, List.map_cons, hf]
    show arun utxoStep (utxoStep b (.addCoin ⟨hash, UInt32.ofNat k⟩ ⟨out, fCoinbase, nHeight⟩ fCoinbase))
      ((outs.zipIdx (k + 1)).map f) = _
    rw [ih (k + 1) _ (by omega)]
    funext o
    unfold afterOutputs
    by_cases hh : o.hash = hash
    · rcases lt_trichotomy o.n.toNat k with hlt | heq | hgt
      · rw [if_neg (by omega), if_neg (by omega),
          utxoStep_addCoin_ne b out (ne_outPoint_of_toNat_ne (by omega) (by omega))]
      · have ho := outPoint_eq_of_toNat (by omega) hh heq
        rw [if_neg (by omega), if_pos ⟨hh, heq.ge⟩, heq, Nat.sub_self, List.getElem?_cons_zero, Option.elim_some, ho]
        simp only [utxoStep]
        split_ifs <;> simp
      · rw [if_pos ⟨hh, hgt⟩, if_pos ⟨hh, hgt.le⟩, show o.n.toNat - k = o.n.toNat - (k + 1) + 1 by omega,
          List.getElem?_cons_succ, utxoStep_addCoin_ne b out (ne_outPoint_of_toNat_ne (by omega) (by omega))]
    · have ho : o ≠ ⟨hash, UInt32.ofNat k⟩ := fun h => hh (by rw [h])
      rw [if_neg (fun h => hh h.1), if_neg (fun h => hh h.1), utxoStep_addCoin_ne b out ho]

theorem validRun_addOutputs (hf : ∀ out i, f (out, i) = .addCoin ⟨hash, UInt32.ofNat i⟩ ⟨out, fCoinbase, nHeight⟩ fCoinbase) :
    ∀ (outs : List CTxOut) (k : Nat) (b : COutPoint → Option Coin), k + outs.length ≤ 2 ^ 32 →
      (∀ out ∈ outs, out.nValue ≠ -1) →
      (fCoinbase = false → ∀ o, o.hash = hash → k ≤ o.n.toNat → b o = none) →
      ValidRun utxoStep CoinsOp.Valid b ((outs.zipIdx k).map f) := by
  intro outs
  induction outs with
  | nil => exact fun _ _ _ _ _ => trivial
  | cons out outs ih =>
    intro k b hk hvalue hfresh
    simp only [List.length_cons] at hk
    rw [List.zipIdx_cons, List.map_cons, hf]
    refine ⟨⟨?_, fun hcb => hfresh hcb _ rfl (by rw [toNat_uint32_ofNat (by omega)])⟩, ?_⟩
    · exact isSpent_eq_false_of_ne (hvalue out List.mem_cons_self)
    · refine ih (k + 1) _ (by omega) (fun o ho => hvalue o (List.mem_cons_of_mem _ ho)) fun hcb o hh hn => ?_
      rw [utxoStep_addCoin_ne b out (ne_outPoint_of_toNat_ne (by omega) (by omega))]
      exact hfresh hcb o hh (by omega)

end outputs

/-- `UpdateCoins` on a chain of caches that refines the UTXO map: for
outputs that are not spent coins, fewer than `2 ^ 32` of them, and no unspent
coin of the transaction's hash left once its inputs are spent (or a
coinbase, which may overwrite), it throws no `std::logic_error` and the
chain ends refining the map with the inputs spent and the outputs added. -/
theorem updateCoins_refines (evict : Bool) (usage : CCoinsMap COutPoint → Nat) {s : CoinsStack COutPoint}
    {a : COutPoint → Option Coin} (hs : s.Refines a) (tx : CTransaction) (nHeight : Nat)
    (hvalue : ∀ out ∈ tx.vout, out.nValue ≠ -1) (hlen : tx.vout.length ≤ 2 ^ 32)
    (hfresh : tx.isCoinBase = false → ∀ o, o.hash = tx.hash → o ∉ tx.vin → a o = none) :
    ∃ s', (updateCoins tx nHeight).foldlM (CoinsStack.step evict usage) s = .ok s' ∧
      s'.Refines (connectTx a tx nHeight) := by
  have hvalid : ValidRun utxoStep CoinsOp.Valid a (updateCoins tx nHeight) := by
    rw [updateCoins, validRun_append]
    refine ⟨?_, ?_⟩
    · unfold spendCoins
      split
      · trivial
      · exact validRun_map_spendCoin tx.vin a
    · rw [arun_spendCoins]
      refine validRun_addOutputs (fun _ _ => rfl) tx.vout 0 _ (by omega) hvalue fun hcb o hh _ => ?_
      by_cases hin : o ∈ tx.vin
      · rw [if_pos ⟨hcb, hin⟩]
      · rw [if_neg (fun h => hin h.2)]
        exact hfresh hcb o hh hin
  obtain ⟨s', hrun, hR⟩ := CoinsStack.foldlM_refines evict usage hs _ hvalid
  rw [updateCoins, arun_append, arun_spendCoins, addCoins, arun_addOutputs (fun _ _ => rfl) tx.vout 0 _ (by omega)] at hR
  exact ⟨s', hrun, hR⟩

theorem updateCoins_refines_sample :
    CoinsStack.Refines ⟨List.replicate 1 (CCoinsViewCache.init default), ⟨∅, default⟩, none⟩
        (CCoinsViewDB.view (⟨∅, default⟩ : CCoinsViewDB COutPoint)) ∧
      (∀ out ∈ sampleTx.vout, out.nValue ≠ -1) ∧ sampleTx.vout.length ≤ 2 ^ 32 ∧
      (sampleTx.isCoinBase = false → ∀ o, o.hash = sampleTx.hash → o ∉ sampleTx.vin →
        CCoinsViewDB.view (⟨∅, default⟩ : CCoinsViewDB COutPoint) o = none) ∧
      ∃ s', (updateCoins sampleTx 101).foldlM (CoinsStack.step true fun _ => 0)
          ⟨List.replicate 1 (CCoinsViewCache.init default), ⟨∅, default⟩, none⟩ = .ok s' ∧
        s'.Refines (connectTx (CCoinsViewDB.view (⟨∅, default⟩ : CCoinsViewDB COutPoint)) sampleTx 101) := by
  have hs := CoinsStack.refines_init (⟨∅, default⟩ : CCoinsViewDB COutPoint) default (k := 1) (by decide) none
  have hvalue : ∀ out ∈ sampleTx.vout, out.nValue ≠ -1 := by
    intro out hout
    simp only [sampleTx, List.mem_singleton] at hout
    subst hout
    decide
  have hfresh : sampleTx.isCoinBase = false → ∀ o, o.hash = sampleTx.hash → o ∉ sampleTx.vin →
      CCoinsViewDB.view (⟨∅, default⟩ : CCoinsViewDB COutPoint) o = none := fun _ _ _ _ => rfl
  exact ⟨hs, hvalue, by decide, hfresh, updateCoins_refines true (fun _ => 0) hs sampleTx 101 hvalue (by decide) hfresh⟩

end update

end Coins

end Membercoin
