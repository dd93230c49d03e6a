import Membercoin.Coins.View
import Membercoin.Lib.Refinement

/-!
# A chain of caches is one UTXO map

The abstract machine is the map from outpoints to unspent coins: `AddCoin`
puts a coin (not one with an unspendable script), `SpendCoin` removes one,
and every other call leaves the map alone (`utxoStep`). Its callers promise
that a coin added is unspent and, without `possible_overwrite`, that the map
has no coin there (`CoinsOp.Valid`).

A chain of caches refines the map when its flags are right and its top
reports the map (`CoinsStack.Refines`). Every call keeps that
(`step_refines`), so every run of valid calls, on the top cache and flushes
of any layer, runs without a `std::logic_error` or a failed `assert` and ends
reporting the map the abstract run computes, and `GetCoin` reads it
(`coinsStack_refines_utxo`).

-/

namespace Membercoin

open Refinement KeyedFold

variable {O : Type} [DecidableEq O]

/-- What each call does to the UTXO map. -/
def utxoStep (a : O → Option Coin) : CoinsOp O → O → Option Coin
  | .addCoin o coin _ => if isUnspendable coin.out.scriptPubKey then a else Function.update a o (some coin)
  | .spendCoin o => Function.update a o none
  | _ => a

/-- What the callers promise: `AddCoin` of an unspent coin, and without
`possible_overwrite` only where the map has no coin. -/
def CoinsOp.Valid (a : O → Option Coin) : CoinsOp O → Prop
  | .addCoin o coin possibleOverwrite => coin.isSpent = false ∧ (possibleOverwrite = false → a o = none)
  | _ => True

instance CoinsOp.instDecidableValid (a : O → Option Coin) : ∀ op : CoinsOp O, Decidable (CoinsOp.Valid a op)
  | .addCoin o coin possibleOverwrite =>
    inferInstanceAs (Decidable (coin.isSpent = false ∧ (possibleOverwrite = false → a o = none)))
  | .getCoin _ | .haveCoin _ | .accessCoin _ | .spendCoin _ | .uncache _ | .trim _ | .setBestBlock _
  | .getBestBlock | .flush _ => isTrue trivial

/-- A chain of caches, with at least one, whose flags are right and whose
top reports `a`. -/
structure CoinsStack.Refines (s : CoinsStack O) (a : O → Option Coin) : Prop where
  layers_ne : s.layers ≠ []
  ok : LayersOk s.db.view s.layers
  view : viewOver s.db.view s.layers = a

omit [DecidableEq O] in
/-- `GetBestBlock` changes best blocks only. -/
theorem stackGetBestBlock_cacheCoins (db : CCoinsViewDB O) :
    ∀ L : List (CCoinsViewCache O), (stackGetBestBlock db L).1.map (·.cacheCoins) = L.map (·.cacheCoins)
  | [] => rfl
  | c :: below => by
    unfold stackGetBestBlock
    split_ifs
    · simp only [List.map_cons, stackGetBestBlock_cacheCoins db below]
    · rfl

section step

variable (evict : Bool) (usage : CCoinsMap O → Nat)

/-- Every valid call runs without an error and keeps the refinement. -/
theorem step_refines :
    StepRefines (fun s op => (CoinsStack.step evict usage s op).toOption) utxoStep CoinsOp.Valid CoinsStack.Refines := by
  intro s a op hR hvalid
  obtain ⟨hne, hok, hview⟩ := hR
  obtain ⟨c, below, hs⟩ : ∃ c below, s.layers = c :: below := List.exists_cons_of_ne_nil hne
  rw [hs] at hok hview
  have hread := fetchCoin_spec (stackGetCoin_spec s.db below hok.2) hok
  cases op with
  | getCoin o | haveCoin o | accessCoin o =>
    obtain ⟨hv, hok', -⟩ := hread o
    exact ⟨_, by simp only [CoinsStack.step, hs]; rfl, ⟨List.cons_ne_nil _ _, hok', hv.trans hview⟩⟩
  | addCoin o coin possibleOverwrite =>
    obtain ⟨hcoin, hpo⟩ := hvalid
    obtain ⟨c', hc', hok', hv⟩ := addCoin_spec hok hcoin fun h => hview ▸ hpo h
    refine ⟨_, by simp only [CoinsStack.step, hs, hc']; rfl, ⟨List.cons_ne_nil _ _, hok', ?_⟩⟩
    rw [hv, hview]
    rfl
  | spendCoin o =>
    obtain ⟨hok', hv⟩ := spendCoin_spec (stackGetCoin_spec s.db below hok.2) hok o
    refine ⟨_, by simp only [CoinsStack.step, hs]; rfl, ⟨List.cons_ne_nil _ _, hok', ?_⟩⟩
    rw [hv, hview]
    rfl
  | uncache o =>
    obtain ⟨hok', hv⟩ := (uncache_dropsClean c o).top hok (c.uncache o) rfl
    exact ⟨_, by simp only [CoinsStack.step, hs]; rfl, ⟨List.cons_ne_nil _ _, hok', hv.trans hview⟩⟩
  | trim nTrimSize =>
    obtain ⟨hok', hv⟩ := (trim_dropsClean usage nTrimSize c s.nTrimHeightDelta).top hok
      { c with cacheCoins := (c.trim usage nTrimSize s.nTrimHeightDelta).1 } rfl
    exact ⟨_, by simp only [CoinsStack.step, hs]; rfl, ⟨List.cons_ne_nil _ _, hok', hv.trans hview⟩⟩
  | setBestBlock h =>
    have hmap : (c.setBestBlock h :: below).map (·.cacheCoins) = (c :: below).map (·.cacheCoins) := rfl
    exact ⟨_, by simp only [CoinsStack.step, hs]; rfl,
      ⟨List.cons_ne_nil _ _, (layersOk_congr hmap).mpr hok, (viewOver_congr hmap).trans hview⟩⟩
  | getBestBlock =>
    have hmap := stackGetBestBlock_cacheCoins s.db s.layers
    refine ⟨_, rfl, ⟨?_, ?_, ?_⟩⟩
    · intro hnil
      have hlen := congrArg List.length hmap
      change (stackGetBestBlock s.db s.layers).1 = [] at hnil
      rw [List.length_map, List.length_map, hnil, hs] at hlen
      simp at hlen
    · exact (layersOk_congr hmap).mpr (hs ▸ hok)
    · exact (viewOver_congr hmap).trans (hs ▸ hview)
  | flush i =>
    obtain ⟨db', L', hf, hok', hv, hlen⟩ := stackFlush_spec evict i s.db (c :: below) hok
    refine ⟨{ s with db := db', layers := L' }, by simp only [CoinsStack.step, hs, hf]; rfl, ⟨?_, hok', hv.trans hview⟩⟩
    intro hnil
    change L' = [] at hnil
    rw [hnil] at hlen
    simp at hlen

end step

/-- Caches just made over the database refine what the database holds. -/
theorem CoinsStack.refines_init (db : CCoinsViewDB O) (hashBlock : Uint256) {k : Nat} (hk : 0 < k)
    (nTrimHeightDelta : Option Nat) :
    CoinsStack.Refines ⟨List.replicate k (CCoinsViewCache.init hashBlock), db, nTrimHeightDelta⟩ db.view := by
  obtain ⟨n, rfl⟩ : ∃ n, k = n + 1 := ⟨k - 1, by omega⟩
  have hview : ∀ n, viewOver db.view (List.replicate n (CCoinsViewCache.init hashBlock)) = db.view := by
    intro n
    induction n with
    | zero => rfl
    | succ n ih =>
      funext o
      rw [List.replicate_succ, viewOver_cons, ih]
      rfl
  have hok : ∀ n, LayersOk db.view (List.replicate n (CCoinsViewCache.init hashBlock)) := by
    intro n
    induction n with
    | zero => trivial
    | succ n ih => exact ⟨cacheOk_empty _, ih⟩
  exact ⟨by simp, hok _, hview _⟩

/-- From a chain that refines the map, every run of valid calls succeeds and
ends refining the abstract run. -/
theorem CoinsStack.foldlM_refines (evict : Bool) (usage : CCoinsMap O → Nat) {s : CoinsStack O}
    {a : O → Option Coin} (hs : s.Refines a) (ops : List (CoinsOp O)) (hvalid : ValidRun utxoStep CoinsOp.Valid a ops) :
    ∃ s', ops.foldlM (CoinsStack.step evict usage) s = .ok s' ∧ s'.Refines (arun utxoStep a ops) := by
  obtain ⟨s', hrun, hR⟩ := run_refines (step_refines evict usage) ops hs hvalid
  rw [run_toOption, Except.toOption_eq_some_iff] at hrun
  exact ⟨s', hrun, hR⟩

/-- A chain of caches behaves as one UTXO map: from caches just made over the
database, every run of valid calls (reads, `AddCoin`, `SpendCoin`,
`Uncache`, `Trim` and the best block on the top cache, `Flush` of any layer)
throws no `std::logic_error` and fails no `assert`, keeps every `DIRTY` and
`FRESH` flag right, and ends with `GetCoin` on the top reading the unspent
coins of the abstract run. -/
theorem coinsStack_refines_utxo (evict : Bool) (usage : CCoinsMap O → Nat) (db : CCoinsViewDB O)
    (hashBlock : Uint256) {k : Nat} (hk : 0 < k) (ops : List (CoinsOp O))
    (hvalid : ValidRun utxoStep CoinsOp.Valid db.view ops) :
    ∃ s', ops.foldlM (CoinsStack.step evict usage) ⟨List.replicate k (CCoinsViewCache.init hashBlock), db, none⟩ =
        .ok s' ∧
      LayersOk s'.db.view s'.layers ∧
      ∀ o, (stackGetCoin s'.db s'.layers o).2.bind unspentCoin = arun utxoStep db.view ops o := by
  obtain ⟨s', hrun, hR⟩ := CoinsStack.foldlM_refines evict usage (CoinsStack.refines_init db hashBlock hk none) ops hvalid
  exact ⟨s', hrun, hR.ok, fun o => by rw [(stackGetCoin_spec s'.db s'.layers hR.ok o).2.2, hR.view]⟩

/-- A sample of calls: add two coins, spend one, flush the top into the cache
below and that one into the database. -/
def sampleCoinsOps : List (CoinsOp Nat) :=
  [.addCoin 1 ⟨⟨5, []⟩, false, 3⟩ false, .addCoin 2 ⟨⟨7, []⟩, false, 3⟩ false, .spendCoin 1, .flush 0, .flush 1]

theorem coinsStack_refines_utxo_sample :
    0 < 2 ∧ ValidRun utxoStep CoinsOp.Valid (CCoinsViewDB.view ⟨∅, default⟩) sampleCoinsOps ∧
      ∃ s', sampleCoinsOps.foldlM (CoinsStack.step true (fun _ => 0))
          ⟨List.replicate 2 (CCoinsViewCache.init default), ⟨∅, default⟩, none⟩ = .ok s' ∧
        LayersOk s'.db.view s'.layers ∧ ∀ o, (stackGetCoin s'.db s'.layers o).2.bind unspentCoin =
          arun utxoStep (CCoinsViewDB.view ⟨∅, default⟩) sampleCoinsOps o := by
  have hvalid : ValidRun utxoStep CoinsOp.Valid (CCoinsViewDB.view (⟨∅, default⟩ : CCoinsViewDB Nat))
      sampleCoinsOps := by
    simp [sampleCoinsOps, ValidRun, CoinsOp.Valid, utxoStep, CCoinsViewDB.view, CCoinsViewDB.getCoin, Coin.isSpent,
      isUnspendable, Function.update]
  exact ⟨by decide, hvalid, coinsStack_refines_utxo true (fun _ => 0) ⟨∅, default⟩ default (by decide) _ hvalid⟩

end Membercoin
