import Membercoin.Serialize.Compressor
import Mathlib.Data.List.AList

/-!
# The UTXO cache (coins.h, coins.cpp, txdb.cpp)

A `CCoinsViewCache` keeps a map from outpoints to coins in front of a base
view, which is another cache or, at the bottom, the coin database
`CCoinsViewDB`. Each cached entry carries two flags: `DIRTY`, the entry may
differ from the base, and `FRESH`, the base has no unspent coin there.
`FetchCoin` copies a coin up from the base on a miss, `AddCoin` and
`SpendCoin` change the top cache only, and `Flush` hands the dirty entries to
the base's `BatchWrite`, which merges them into the base cache or writes them
to the database. `Uncache` and `Trim` drop entries whose flags are both
clear.

The map is an association list with distinct keys (`CCoinsMap`); its order
is the iteration order of the `unordered_map`, which the code does not fix.
The outpoint type is a parameter. The memory accounting
(`cachedCoinsUsage`) is left out: `Trim` reads the usage it compares with
its target through the parameter `usage`. The database's writes do not fail.

A chain of caches over the database (`pcoinsTip` over `pcoinsdbview`, and
the caches that validation stacks on it) is `CoinsStack`, the top cache
first. Reading a coin runs `FetchCoin` down the chain (`stackGetCoin`), and
`Flush` of a layer writes into the layer below it (`stackFlush`).
-/

namespace Membercoin

/-- `uint256::IsNull`: every byte zero. -/
def Uint256.isNull (a : Uint256) : Bool := a.data.all (· == 0)

/-- `CScript::IsUnspendable`: a script that starts with `OP_RETURN`, or one
longer than `MAX_SCRIPT_SIZE`. -/
def isUnspendable (script : List UInt8) : Bool :=
  script.head? == some opReturn || decide (maxScriptSize < script.length)

/-- `Coin`: an output, whether it is a coinbase's, and the height of its block. -/
structure Coin where
  out : CTxOut
  fCoinBase : Bool
  nHeight : Nat
  deriving Repr, DecidableEq

namespace Coin

/-- `Coin()`, and what `Coin::Clear` leaves: the null output (`nValue = -1`,
no script), not a coinbase, height zero. -/
def empty : Coin := ⟨⟨-1, []⟩, false, 0⟩

/-- `IsSpent`: the output is null. -/
def isSpent (coin : Coin) : Bool := coin.out.nValue == -1

@[simp] theorem isSpent_empty : empty.isSpent = true := rfl

end Coin

/-- `CCoinsCacheEntry`. Its `flags` byte only ever holds `DIRTY` (1) and
`FRESH` (2), so it is the two booleans. -/
structure CCoinsCacheEntry where
  coin : Coin
  dirty : Bool
  fresh : Bool
  deriving Repr, DecidableEq

namespace CCoinsCacheEntry

/-- `CCoinsCacheEntry()`: the empty coin and no flags. -/
def new : CCoinsCacheEntry := ⟨Coin.empty, false, false⟩

/-- `flags == 0`. -/
def isClean (e : CCoinsCacheEntry) : Bool := !e.dirty && !e.fresh

/-- The entry `FetchCoin` makes for a coin read from the base: `FRESH` when
the coin is spent, as the base only has an empty entry there. -/
def fetched (coin : Coin) : CCoinsCacheEntry := ⟨coin, false, coin.isSpent⟩

end CCoinsCacheEntry

/-- `CCoinsMap`: an `unordered_map` from outpoints to cache entries. -/
abbrev CCoinsMap (O : Type) := AList (fun _ : O => CCoinsCacheEntry)

/-- What ends a call on the cache early: a failed `assert`, or a thrown
`std::logic_error` with its message. -/
inductive CoinsFault where
  | assertNotSpent
  | logicError (what : String)
  deriving Repr, DecidableEq

/-- The data of a `CCoinsViewCache`: the best block, the greatest height of a
coin it has held, and the cached entries. -/
structure CCoinsViewCache (O : Type) where
  hashBlock : Uint256
  nBestCoinHeight : Nat
  cacheCoins : CCoinsMap O

/-- The coin database behind `CCoinsViewDB`: the coins stored under their
outpoints, and the best block. -/
structure CCoinsViewDB (O : Type) where
  coins : AList (fun _ : O => Coin)
  hashBestChain : Uint256

variable {O : Type} [DecidableEq O]

namespace CCoinsViewDB

/-- `GetCoin`: the coin stored under the outpoint. -/
def getCoin (db : CCoinsViewDB O) (o : O) : Option Coin := db.coins.lookup o

/-- One dirty entry of `BatchWrite`'s loop: a spent coin is erased from the
database and from the child map; an unspent one is written, and then erased
from the child map when `evict` (the node is nearly synced and the cache
small) or kept there with its flags cleared. -/
def batchWriteEntry (evict : Bool) (s : CCoinsMap O × AList (fun _ : O => Coin)) (o : O)
    (e : CCoinsCacheEntry) : CCoinsMap O × AList (fun _ : O => Coin) :=
  if e.coin.isSpent then (s.1.erase o, s.2.erase o)
  else if evict then (s.1.erase o, s.2.insert o e.coin)
  else (s.1.insert o { e with dirty := false, fresh := false }, s.2.insert o e.coin)

/-- `BatchWrite`: the dirty entries written, the child's map after the loop,
and the best block written when it is not null. -/
def batchWrite (evict : Bool) (db : CCoinsViewDB O) (mapCoins : CCoinsMap O) (hashBlock : Uint256) :
    CCoinsMap O × CCoinsViewDB O :=
  let r := mapCoins.entries.foldl (fun s x => if x.2.dirty then batchWriteEntry evict s x.1 x.2 else s)
    (mapCoins, db.coins)
  (r.1, ⟨r.2, if hashBlock.isNull then db.hashBestChain else hashBlock⟩)

end CCoinsViewDB

namespace CCoinsViewCache

variable {σ : Type}

/-- A cache over a base with nothing cached yet. -/
def init (hashBlock : Uint256) : CCoinsViewCache O := ⟨hashBlock, 0, ∅⟩

/-- The cache after `FetchCoin` copied `coin` up from the base to `o`. -/
def cacheFetched (c : CCoinsViewCache O) (o : O) (coin : Coin) : CCoinsViewCache O :=
  { c with cacheCoins := c.cacheCoins.insert o (.fetched coin), nBestCoinHeight := max c.nBestCoinHeight coin.nHeight }

@[simp] theorem cacheFetched_cacheCoins (c : CCoinsViewCache O) (o : O) (coin : Coin) :
    (c.cacheFetched o coin).cacheCoins = c.cacheCoins.insert o (.fetched coin) := rfl

/-- `FetchCoin`: the entry at `o`. On a miss the coin is read from the base
with `baseGetCoin`, which may change the base's state `σ`, and cached. -/
def fetchCoin (c : CCoinsViewCache O) (base : σ) (baseGetCoin : O → σ × Option Coin) (o : O) :
    CCoinsViewCache O × σ × Option CCoinsCacheEntry :=
  match c.cacheCoins.lookup o with
  | some e => (c, base, some e)
  | none =>
    match baseGetCoin o with
    | (base', none) => (c, base', none)
    | (base', some coin) => (c.cacheFetched o coin, base', some (.fetched coin))

/-- `GetCoin`: the coin of the entry `FetchCoin` finds, spent or not. -/
def getCoin (c : CCoinsViewCache O) (base : σ) (baseGetCoin : O → σ × Option Coin) (o : O) :
    CCoinsViewCache O × σ × Option Coin :=
  let r := c.fetchCoin base baseGetCoin o
  (r.1, r.2.1, r.2.2.map (·.coin))

/-- `HaveCoin`: `FetchCoin` finds an unspent coin. -/
def haveCoin (c : CCoinsViewCache O) (base : σ) (baseGetCoin : O → σ × Option Coin) (o : O) :
    CCoinsViewCache O × σ × Bool :=
  let r := c.fetchCoin base baseGetCoin o
  (r.1, r.2.1, r.2.2.any (!·.coin.isSpent))

/-- `_AccessCoin`: the coin `FetchCoin` finds, or the empty coin. -/
def accessCoin (c : CCoinsViewCache O) (base : σ) (baseGetCoin : O → σ × Option Coin) (o : O) :
    CCoinsViewCache O × σ × Coin :=
  let r := c.fetchCoin base baseGetCoin o
  (r.1, r.2.1, (r.2.2.map (·.coin)).getD Coin.empty)

/-- `HaveCoinInCache`: whether `o` is cached, and then `fSpent`. -/
def haveCoinInCache (c : CCoinsViewCache O) (o : O) : Option Bool :=
  (c.cacheCoins.lookup o).map (·.coin.isSpent)

/-- `AddCoin`. The coin must be unspent (an `assert`). An unspendable script
is not cached. Without `possible_overwrite` the entry found or emplaced must
hold a spent coin, and the new entry is `FRESH` if that one was not `DIRTY`;
the flags of an entry found are kept. The base is not read. -/
def addCoin (c : CCoinsViewCache O) (o : O) (coin : Coin) (possibleOverwrite : Bool) :
    Except CoinsFault (CCoinsViewCache O) := do
  if coin.isSpent then throw .assertNotSpent
  if isUnspendable coin.out.scriptPubKey then return c
  let e := (c.cacheCoins.lookup o).getD .new
  let fresh ←
    if possibleOverwrite then pure false
    else if !e.coin.isSpent then throw (.logicError "Adding new coin that replaces non-pruned entry")
    else pure !e.dirty
  pure { c with cacheCoins := c.cacheCoins.insert o ⟨coin, true, e.fresh || fresh⟩,
                nBestCoinHeight := max c.nBestCoinHeight coin.nHeight }

/-- `SpendCoin`, with the coin moved out. A `FRESH` entry is erased; any
other is cleared and marked `DIRTY`. An outpoint the base lacks is left
alone. -/
def spendCoin (c : CCoinsViewCache O) (base : σ) (baseGetCoin : O → σ × Option Coin) (o : O) :
    CCoinsViewCache O × σ × Option Coin :=
  match c.fetchCoin base baseGetCoin o with
  | (c', base', none) => (c', base', none)
  | (c', base', some e) =>
    if e.fresh then ({ c' with cacheCoins := c'.cacheCoins.erase o }, base', some e.coin)
    else ({ c' with cacheCoins := c'.cacheCoins.insert o { e with coin := Coin.empty, dirty := true } }, base',
      some e.coin)

/-- `Uncache`: drop the entry at `o` if its flags are clear. -/
def uncache (c : CCoinsViewCache O) (o : O) : CCoinsViewCache O :=
  match c.cacheCoins.lookup o with
  | some e => if e.isClean then { c with cacheCoins := c.cacheCoins.erase o } else c
  | none => c

/-- `GetCoinFromDB`: read `o` from the base and emplace it, which keeps an
entry already there; an entry whose coin is spent then gets the flags
`FRESH` alone. Returns whether the coin is unspent. -/
def getCoinFromDB (c : CCoinsViewCache O) (baseGetCoin : O → σ × Option Coin) (o : O) :
    CCoinsViewCache O × σ × Bool :=
  match baseGetCoin o with
  | (base', none) => (c, base', false)
  | (base', some coin) =>
    let e := (c.cacheCoins.lookup o).getD ⟨coin, false, false⟩
    let e := if e.coin.isSpent then { e with dirty := false, fresh := true } else e
    ({ c with cacheCoins := c.cacheCoins.insert o e, nBestCoinHeight := max c.nBestCoinHeight e.coin.nHeight },
      base', !e.coin.isSpent)

/-- `SetBestBlock`. -/
def setBestBlock (c : CCoinsViewCache O) (hashBlockIn : Uint256) : CCoinsViewCache O :=
  { c with hashBlock := hashBlockIn }

/-- `Clear`: every entry dropped, dirty ones too. -/
def clear (c : CCoinsViewCache O) : CCoinsViewCache O := { c with cacheCoins := ∅ }

/-- One dirty entry of `BatchWrite`'s loop, into the parent's map. A `FRESH`
spent entry the parent lacks need not go up. Otherwise an entry the parent
lacks goes up `DIRTY`, and `FRESH` if it was. Over an entry of the parent:
a `FRESH` child entry there must be spent (a `std::logic_error`); a spent
coin over a `FRESH` parent entry erases it; else the coin replaces the
parent's, which becomes `DIRTY` and keeps its `FRESH`. -/
def batchWriteEntry (parent : CCoinsMap O) (o : O) (e : CCoinsCacheEntry) : Except CoinsFault (CCoinsMap O) :=
  match parent.lookup o with
  | none => if e.fresh && e.coin.isSpent then pure parent else pure (parent.insert o ⟨e.coin, true, e.fresh⟩)
  | some p =>
    if e.fresh && !p.coin.isSpent then
      throw (.logicError "FRESH flag misapplied to cache entry for base transaction with spendable outputs")
    else if p.fresh && e.coin.isSpent then pure (parent.erase o)
    else pure (parent.insert o { p with coin := e.coin, dirty := true })

/-- The body of `BatchWrite`'s loop: a dirty entry goes up and leaves the
child's map; a clean one stays. -/
def batchWriteStep (s : CCoinsMap O × CCoinsMap O) (x : Σ _ : O, CCoinsCacheEntry) :
    Except CoinsFault (CCoinsMap O × CCoinsMap O) :=
  if x.2.dirty then do
    let parent ← batchWriteEntry s.2 x.1 x.2
    pure (s.1.erase x.1, parent)
  else pure s

/-- `BatchWrite` into this cache: the child's map after the loop, and this
cache with the dirty entries merged, the child's best block, and the greater
best coin height. -/
def batchWrite (c : CCoinsViewCache O) (mapCoins : CCoinsMap O) (hashBlockIn : Uint256) (nBestCoinHeightIn : Nat) :
    Except CoinsFault (CCoinsMap O × CCoinsViewCache O) := do
  let r ← mapCoins.entries.foldlM batchWriteStep (mapCoins, c.cacheCoins)
  pure (r.1, { c with hashBlock := hashBlockIn, nBestCoinHeight := max c.nBestCoinHeight nBestCoinHeightIn,
                      cacheCoins := r.2 })

/-! ### Trim -/

/-- `nSmallestDelta`: the step, in blocks, of `Trim`'s height adjustments. -/
def nSmallestDelta : Nat := 50

/-- How `Trim` lowers `nTrimHeightDelta` when trimming by height did not
free enough: by 100, 500 or 10000 blocks as it is small, middling or large. -/
def trimDeltaStep (delta : Nat) : Nat :=
  if delta ≤ nSmallestDelta * 100 then (if nSmallestDelta * 2 < delta then delta - nSmallestDelta * 2 else 0)
  else if delta ≤ nSmallestDelta * 400 then (if nSmallestDelta * 10 < delta then delta - nSmallestDelta * 10 else 0)
  else (if nSmallestDelta * 200 < delta then delta - nSmallestDelta * 200 else 0)

theorem trimDeltaStep_lt {delta : Nat} (h : nSmallestDelta < delta) : trimDeltaStep delta < delta := by
  unfold trimDeltaStep
  unfold nSmallestDelta at *
  split_ifs <;> omega

variable (usage : CCoinsMap O → Nat) (nTrimSize : Nat)

/-- An inner loop of `Trim`: from the beginning of the map, while its usage
is above `nTrimSize`, erase the entries `pick` selects. Returns the map,
whether the walk reached the end with the usage still above, and how many
entries it erased. The keys are the map's at the start. -/
def trimWalk (pick : CCoinsCacheEntry → Bool) : CCoinsMap O → List O → CCoinsMap O × Bool × Nat
  | m, [] => (m, decide (nTrimSize < usage m), 0)
  | m, o :: os =>
    if nTrimSize < usage m then
      match m.lookup o with
      | some e =>
        if pick e then
          let r := trimWalk pick (m.erase o) os
          (r.1, r.2.1, r.2.2 + 1)
        else trimWalk pick m os
      | none => trimWalk pick m os
    else (m, false, 0)

/-- The first loop of `Trim`: walk the map erasing clean entries below
`trimHeight`; while the walk ends with the usage still above its target and
`nTrimHeightDelta` above `nSmallestDelta`, lower the delta, raise the trim
height to match and walk again. Returns the map, the delta, and how many
entries it erased. -/
def trimByHeight (best : Nat) (m : CCoinsMap O) (delta trimHeight : Nat) : CCoinsMap O × Nat × Nat :=
  if nTrimSize < usage m then
    let r := trimWalk usage nTrimSize (fun e => e.isClean && decide (e.coin.nHeight < trimHeight)) m m.keys
    if h : r.2.1 = true ∧ nTrimSize < usage r.1 ∧ nSmallestDelta < delta then
      let r' := trimByHeight best r.1 (trimDeltaStep delta)
        (if trimDeltaStep delta < best then best - trimDeltaStep delta else 0)
      (r'.1, r'.2.1, r.2.2 + r'.2.2)
    else (r.1, delta, r.2.2)
  else (m, delta, 0)
termination_by delta
decreasing_by exact trimDeltaStep_lt h.2.2

/-- `Trim(nTrimSize)`: the map after it, and the new value of its
function-static `nTrimHeightDelta`. That static is set on the first call,
from `nBestCoinHeight * 0.80` truncated, which is `nBestCoinHeight * 4 / 5`
below `2 ^ 52`. After the walks by height, a last walk erases any clean
entry; when nothing was erased, the delta grows by `nSmallestDelta`, up to
`nBestCoinHeight`. -/
def trim (c : CCoinsViewCache O) (nTrimHeightDelta : Option Nat) : CCoinsMap O × Nat :=
  let best := c.nBestCoinHeight
  let delta := nTrimHeightDelta.getD (best * 4 / 5)
  -- `nBestCoinHeight - nTrimHeightDelta` in `uint64_t`
  let r := trimByHeight usage nTrimSize best c.cacheCoins delta ((best + 2 ^ 64 - delta) % 2 ^ 64)
  let r₂ := trimWalk usage nTrimSize CCoinsCacheEntry.isClean r.1 r.1.keys
  (r₂.1, if r.2.2 = 0 ∧ r₂.2.2 = 0 then min (r.2.1 + nSmallestDelta) best else r.2.1)

end CCoinsViewCache

/-! ### A chain of caches over the database -/

/-- Caches stacked over the coin database, the top one first, and the
function-static `nTrimHeightDelta` of `Trim`, unset before its first call. -/
structure CoinsStack (O : Type) where
  layers : List (CCoinsViewCache O)
  db : CCoinsViewDB O
  nTrimHeightDelta : Option Nat

/-- `GetCoin` of the view made of `layers` over `db`: each cache runs
`FetchCoin`, which reads the one below it on a miss. -/
def stackGetCoin (db : CCoinsViewDB O) : List (CCoinsViewCache O) → O → List (CCoinsViewCache O) × Option Coin
  | [], o => ([], db.getCoin o)
  | c :: below, o =>
    let r := c.getCoin below (stackGetCoin db below) o
    (r.1 :: r.2.1, r.2.2)

/-- `GetBestBlock`: a cache whose best block is null asks the view below and
keeps the answer. -/
def stackGetBestBlock (db : CCoinsViewDB O) : List (CCoinsViewCache O) → List (CCoinsViewCache O) × Uint256
  | [] => ([], db.hashBestChain)
  | c :: below =>
    if c.hashBlock.isNull then
      let r := stackGetBestBlock db below
      ({ c with hashBlock := r.2 } :: r.1, r.2)
    else (c :: below, c.hashBlock)

/-- `Flush` of the `i`-th layer from the top: `BatchWrite` of its map into
the layer below it, or into the database under the bottom layer. There is
no layer to flush past the bottom. -/
def stackFlush (evict : Bool) (db : CCoinsViewDB O) :
    Nat → List (CCoinsViewCache O) → Except CoinsFault (CCoinsViewDB O × List (CCoinsViewCache O))
  | 0, [c] =>
    let r := db.batchWrite evict c.cacheCoins c.hashBlock
    pure (r.2, [{ c with cacheCoins := r.1 }])
  | 0, c :: p :: below => do
    let r ← p.batchWrite c.cacheCoins c.hashBlock c.nBestCoinHeight
    pure (db, { c with cacheCoins := r.1 } :: r.2 :: below)
  | i + 1, c :: below => do
    let r ← stackFlush evict db i below
    pure (r.1, c :: r.2)
  | _, [] => pure (db, [])

/-- The calls made on a chain of caches: reads, changes and `Trim` on the top
cache, and `Flush` of any layer. -/
inductive CoinsOp (O : Type) where
  | getCoin (o : O)
  | haveCoin (o : O)
  | accessCoin (o : O)
  | addCoin (o : O) (coin : Coin) (possibleOverwrite : Bool)
  | spendCoin (o : O)
  | uncache (o : O)
  | trim (nTrimSize : Nat)
  | setBestBlock (hashBlock : Uint256)
  | getBestBlock
  | flush (layer : Nat)

namespace CoinsStack

variable (evict : Bool) (usage : CCoinsMap O → Nat)

/-- One call on the chain. A call on the top cache of a chain without caches
does nothing. -/
def step (s : CoinsStack O) : CoinsOp O → Except CoinsFault (CoinsStack O)
  | .getCoin o | .haveCoin o | .accessCoin o =>
    match s.layers with
    | [] => pure s
    | c :: below =>
      let r := c.fetchCoin below (stackGetCoin s.db below) o
      pure { s with layers := r.1 :: r.2.1 }
  | .addCoin o coin possibleOverwrite =>
    match s.layers with
    | [] => pure s
    | c :: below => do
      let c' ← c.addCoin o coin possibleOverwrite
      pure { s with layers := c' :: below }
  | .spendCoin o =>
    match s.layers with
    | [] => pure s
    | c :: below =>
      let r := c.spendCoin below (stackGetCoin s.db below) o
      pure { s with layers := r.1 :: r.2.1 }
  | .uncache o =>
    match s.layers with
    | [] => pure s
    | c :: below => pure { s with layers := c.uncache o :: below }
  | .trim nTrimSize =>
    match s.layers with
    | [] => pure s
    | c :: below =>
      let r := c.trim usage nTrimSize s.nTrimHeightDelta
      pure { s with layers := { c with cacheCoins := r.1 } :: below, nTrimHeightDelta := some r.2 }
  | .setBestBlock h =>
    match s.layers with
    | [] => pure s
    | c :: below => pure { s with layers := c.setBestBlock h :: below }
  | .getBestBlock => pure { s with layers := (stackGetBestBlock s.db s.layers).1 }
  | .flush i => do
    let r ← stackFlush evict s.db i s.layers
    pure { s with db := r.1, layers := r.2 }

end CoinsStack

end Membercoin
