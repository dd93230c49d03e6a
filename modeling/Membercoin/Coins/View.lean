import Membercoin.Coins.Cache
import Membercoin.Lib.KeyedFold
import Membercoin.Lib.Except

/-!
# What a chain of caches reports, and why the flags are right

A view reports an unspent coin or none (`unspentCoin`). Over a base that
reports `V`, a chain of caches reports `viewOver V`: the first layer with an
entry decides. The flags are right when every entry agrees with the view of
the layers below it (`EntryOk`): a clean entry holds that view's coin (or a
spent coin where it has none), and a `FRESH` entry stands where it has none.
`LayersOk` says so of every layer.

Each call keeps `LayersOk` and changes the view as the abstract UTXO map
says: `FetchCoin` copies what the layer below reports
(`stackGetCoin_spec`), `AddCoin` puts its coin (`addCoin_spec`),
`SpendCoin` removes it (`spendCoin_spec`), `Uncache` and `Trim` drop only
clean entries (`DropsClean`), and `Flush` moves the dirty entries down one
layer without changing what any layer above it reports
(`stackFlush_spec`). The two `std::logic_error`s are never thrown: the one
in `AddCoin` by its caller's promise, the one in `BatchWrite` by
`EntryOk.fresh`.
-/

namespace Membercoin

open KeyedFold

variable {O : Type} [DecidableEq O]

/-- The unspent coin a view reports for a coin it holds. -/
def unspentCoin (coin : Coin) : Option Coin := if coin.isSpent then none else some coin

@[simp] theorem unspentCoin_eq_none {coin : Coin} : unspentCoin coin = none ↔ coin.isSpent = true := by
  unfold unspentCoin
  split_ifs with h <;> simp [h]

theorem unspentCoin_of_not_spent {coin : Coin} (h : coin.isSpent = false) : unspentCoin coin = some coin := by
  simp [unspentCoin, h]

/-- What a cache entry, if there is one, makes of the view `v` below it. -/
def overEntry (l : Option CCoinsCacheEntry) (v : Option Coin) : Option Coin :=
  match l with
  | some e => unspentCoin e.coin
  | none => v

@[simp] theorem overEntry_some (e : CCoinsCacheEntry) (v : Option Coin) : overEntry (some e) v = unspentCoin e.coin :=
  rfl

@[simp] theorem overEntry_none (v : Option Coin) : overEntry none v = v := rfl

/-- The unspent coins of `layers` over a base whose unspent coins are `V`. -/
def viewOver (V : O → Option Coin) : List (CCoinsViewCache O) → O → Option Coin
  | [], o => V o
  | c :: below, o => overEntry (c.cacheCoins.lookup o) (viewOver V below o)

@[simp] theorem viewOver_nil (V : O → Option Coin) (o : O) : viewOver V [] o = V o := rfl

@[simp] theorem viewOver_cons (V : O → Option Coin) (c : CCoinsViewCache O) (below : List (CCoinsViewCache O))
    (o : O) : viewOver V (c :: below) o = overEntry (c.cacheCoins.lookup o) (viewOver V below o) := rfl

/-- The unspent coins of the database. -/
def CCoinsViewDB.view (db : CCoinsViewDB O) (o : O) : Option Coin := (db.getCoin o).bind unspentCoin

/-- A cache entry agrees with `b`, the unspent coin of the view below it. -/
structure EntryOk (b : Option Coin) (e : CCoinsCacheEntry) : Prop where
  clean : e.dirty = false → unspentCoin e.coin = b
  fresh : e.fresh = true → b = none

/-- Every entry of a map agrees with the view `V` below it. -/
def CacheOk (V : O → Option Coin) (m : CCoinsMap O) : Prop := ∀ o e, m.lookup o = some e → EntryOk (V o) e

/-- Every layer agrees with the view of the layers below it, over `V`. -/
def LayersOk (V : O → Option Coin) : List (CCoinsViewCache O) → Prop
  | [] => True
  | c :: below => CacheOk (viewOver V below) c.cacheCoins ∧ LayersOk V below

@[simp] theorem layersOk_nil (V : O → Option Coin) : LayersOk V ([] : List (CCoinsViewCache O)) := trivial

@[simp] theorem layersOk_cons {V : O → Option Coin} {c : CCoinsViewCache O} {below : List (CCoinsViewCache O)} :
    LayersOk V (c :: below) ↔ CacheOk (viewOver V below) c.cacheCoins ∧ LayersOk V below := Iff.rfl

/-- A `FRESH` entry over an entry of the layer below has a spent coin there:
the check of `BatchWrite` that throws. -/
theorem EntryOk.below_spent {e p : CCoinsCacheEntry} {b : Option Coin} (he : EntryOk (overEntry (some p) b) e)
    (hfresh : e.fresh = true) : p.coin.isSpent = true :=
  unspentCoin_eq_none.mp (he.fresh hfresh)

theorem cacheOk_empty (V : O → Option Coin) : CacheOk V (∅ : CCoinsMap O) := fun o e h => by
  simp [AList.lookup_empty] at h

/-! ### Layers that differ in their best block or height only -/

section congr

variable {V V' : O → Option Coin}

/-- The view of a chain reads the caches' maps only. -/
theorem viewOver_congr {L L' : List (CCoinsViewCache O)} (h : L.map (·.cacheCoins) = L'.map (·.cacheCoins)) :
    viewOver V L = viewOver V L' := by
  induction L generalizing L' with
  | nil => cases L' with
    | nil => rfl
    | cons _ _ => cases h
  | cons c L ih => cases L' with
    | nil => cases h
    | cons c' L' =>
      obtain ⟨hc, hL⟩ := List.cons.inj h
      have hc : c.cacheCoins = c'.cacheCoins := hc
      funext o
      rw [viewOver_cons, viewOver_cons, hc, ih hL]

theorem layersOk_congr {L L' : List (CCoinsViewCache O)} (h : L.map (·.cacheCoins) = L'.map (·.cacheCoins)) :
    LayersOk V L ↔ LayersOk V L' := by
  induction L generalizing L' with
  | nil => cases L' with
    | nil => rfl
    | cons _ _ => cases h
  | cons c L ih => cases L' with
    | nil => cases h
    | cons c' L' =>
      obtain ⟨hc, hL⟩ := List.cons.inj h
      have hc : c.cacheCoins = c'.cacheCoins := hc
      rw [layersOk_cons, layersOk_cons, hc, viewOver_congr hL, ih hL]

/-- A layer put over views that agree gives views that agree. -/
theorem viewOver_cons_congr {L L' : List (CCoinsViewCache O)} (h : viewOver V L = viewOver V' L')
    (c : CCoinsViewCache O) : viewOver V (c :: L) = viewOver V' (c :: L') := by
  funext o
  rw [viewOver_cons, viewOver_cons, h]

end congr

/-! ### Reading: `FetchCoin` down the chain -/

section fetch

variable {V : O → Option Coin}

/-- What the layer below promises a cache that reads from it: the read keeps
its view and its invariant, and returns a coin whose unspent part is its
view. -/
def ReadsBelow (V : O → Option Coin) (below : List (CCoinsViewCache O))
    (get : O → List (CCoinsViewCache O) × Option Coin) : Prop :=
  ∀ o, viewOver V (get o).1 = viewOver V below ∧ LayersOk V (get o).1 ∧ (get o).2.bind unspentCoin = viewOver V below o

/-- The entry `FetchCoin` caches agrees with the view below. -/
theorem entryOk_fetched {coin : Coin} {b : Option Coin} (h : (some coin).bind unspentCoin = b) :
    EntryOk b (.fetched coin) :=
  ⟨fun _ => h, fun hs => by rw [← h]; exact unspentCoin_eq_none.mpr hs⟩

/-- `FetchCoin` keeps the view and the invariant, and finds the entry, now
cached, that reports the view. -/
theorem fetchCoin_spec {c : CCoinsViewCache O} {below : List (CCoinsViewCache O)}
    {get : O → List (CCoinsViewCache O) × Option Coin} (hget : ReadsBelow V below get) (hok : LayersOk V (c :: below))
    (o : O) :
    viewOver V ((c.fetchCoin below get o).1 :: (c.fetchCoin below get o).2.1) = viewOver V (c :: below) ∧
      LayersOk V ((c.fetchCoin below get o).1 :: (c.fetchCoin below get o).2.1) ∧
      (c.fetchCoin below get o).2.2.bind (fun e => unspentCoin e.coin) = viewOver V (c :: below) o ∧
      ∀ e, (c.fetchCoin below get o).2.2 = some e → (c.fetchCoin below get o).1.cacheCoins.lookup o = some e := by
  unfold CCoinsViewCache.fetchCoin
  cases hl : c.cacheCoins.lookup o with
  | some e => exact ⟨rfl, hok, by simp [hl], fun _ he => by rw [← he]; exact hl⟩
  | none =>
    obtain ⟨hv, hok', hr⟩ := hget o
    rcases hg : get o with ⟨below', r⟩
    simp only [hg] at hv hok' hr ⊢
    cases r with
    | none =>
      refine ⟨viewOver_cons_congr hv c, ⟨hv ▸ hok.1, hok'⟩, ?_, fun _ h => nomatch h⟩
      simp only [viewOver_cons, hl, overEntry_none, ← hr, Option.bind_none]
    | some coin =>
      have hview : viewOver V (c.cacheFetched o coin :: below') = viewOver V (c :: below) := by
        funext o'
        rw [viewOver_cons, viewOver_cons, CCoinsViewCache.cacheFetched_cacheCoins, lookup_insert_ite, hv]
        split_ifs with ho
        · subst ho
          rw [hl, overEntry_none, ← hr]
          rfl
        · rfl
      refine ⟨hview, ⟨fun o' e' he' => ?_, hok'⟩, ?_, fun e he => ?_⟩
      · rw [CCoinsViewCache.cacheFetched_cacheCoins, lookup_insert_ite] at he'
        rw [hv]
        split_ifs at he' with ho
        · cases he'
          subst ho
          exact entryOk_fetched hr
        · exact hok.1 o' e' he'
      · simp only [Option.bind_some, viewOver_cons, hl, overEntry_none, ← hr]
        rfl
      · cases he
        exact AList.lookup_insert _

/-- `GetCoin` of a chain keeps its view and its invariant, and returns a coin
whose unspent part is the view. -/
theorem stackGetCoin_spec (db : CCoinsViewDB O) :
    ∀ L : List (CCoinsViewCache O), LayersOk db.view L → ReadsBelow db.view L (stackGetCoin db L) := by
  intro L
  induction L with
  | nil => intro _ o; exact ⟨rfl, trivial, rfl⟩
  | cons c below ih =>
    intro hok o
    obtain ⟨hv, hok', hr, -⟩ := fetchCoin_spec (ih hok.2) hok o
    refine ⟨hv, hok', ?_⟩
    simp only [stackGetCoin, CCoinsViewCache.getCoin, Option.bind_map]
    exact hr

end fetch

/-! ### The calls on the top cache -/

section top

variable {V : O → Option Coin} {c : CCoinsViewCache O} {below : List (CCoinsViewCache O)}

/-- `AddCoin` of an unspent coin, without `possible_overwrite` only where the
view has no unspent coin, does not throw, keeps the invariant, and puts the
coin unless its script is unspendable. -/
theorem addCoin_spec (hok : LayersOk V (c :: below)) {o : O} {coin : Coin} {possibleOverwrite : Bool}
    (hcoin : coin.isSpent = false) (hpo : possibleOverwrite = false → viewOver V (c :: below) o = none) :
    ∃ c', c.addCoin o coin possibleOverwrite = .ok c' ∧ LayersOk V (c' :: below) ∧
      viewOver V (c' :: below) =
        if isUnspendable coin.out.scriptPubKey then viewOver V (c :: below)
        else Function.update (viewOver V (c :: below)) o (some coin) := by
  by_cases hun : isUnspendable coin.out.scriptPubKey = true
  · exact ⟨c, by simp [CCoinsViewCache.addCoin, hcoin, hun], hok, by rw [if_pos hun]⟩
  rw [if_neg hun]
  set e := (c.cacheCoins.lookup o).getD .new with he
  have hentry : ∀ e', c.cacheCoins.lookup o = some e' → e' = e := fun e' h => by rw [he, h]; rfl
  have hspent : possibleOverwrite = false → e.coin.isSpent = true := fun hp => by
    cases hl : c.cacheCoins.lookup o with
    | none => rw [he, hl]; rfl
    | some e' =>
      have h := hpo hp
      rw [viewOver_cons, hl, overEntry_some, unspentCoin_eq_none] at h
      rw [← hentry e' hl]
      exact h
  set fresh := (!possibleOverwrite && !e.dirty) with hfresh
  have hcall : c.addCoin o coin possibleOverwrite = .ok { c with
      cacheCoins := c.cacheCoins.insert o ⟨coin, true, e.fresh || fresh⟩,
      nBestCoinHeight := max c.nBestCoinHeight coin.nHeight } := by
    cases possibleOverwrite with
    | true => simp [CCoinsViewCache.addCoin, hcoin, hun, ← he, hfresh]
    | false => simp [CCoinsViewCache.addCoin, hcoin, hun, ← he, hspent rfl, hfresh]
  have hnew : EntryOk (viewOver V below o) ⟨coin, true, e.fresh || fresh⟩ := by
    refine ⟨(fun h => nomatch h), fun hf => ?_⟩
    cases hl : c.cacheCoins.lookup o with
    | none =>
      have hdirty : e.fresh = false := by rw [he, hl]; rfl
      have hp : possibleOverwrite = false := by
        cases possibleOverwrite
        · rfl
        · simp [hfresh, hdirty] at hf
      have h := hpo hp
      rwa [viewOver_cons, hl, overEntry_none] at h
    | some e' =>
      have hok' := hok.1 o e' hl
      rw [← hentry e' hl] at hf hfresh
      rcases Bool.or_eq_true_iff.mp hf with h | h
      · exact hok'.fresh h
      · simp only [hfresh, Bool.and_eq_true, Bool.not_eq_true'] at h
        rw [← hok'.clean h.2]
        exact unspentCoin_eq_none.mpr (hentry e' hl ▸ hspent h.1)
  refine ⟨_, hcall, ⟨fun o' e' he' => ?_, hok.2⟩, ?_⟩
  · rw [lookup_insert_ite] at he'
    split_ifs at he' with ho
    · cases he'
      subst ho
      exact hnew
    · exact hok.1 o' e' he'
  · funext o'
    rw [viewOver_cons, lookup_insert_ite]
    by_cases ho : o' = o
    · subst ho
      rw [if_pos rfl, Function.update_self, overEntry_some, unspentCoin_of_not_spent hcoin]
    · rw [if_neg ho, Function.update_of_ne ho, viewOver_cons]

/-- `SpendCoin` keeps the invariant and removes the coin from the view. -/
theorem spendCoin_spec {get : O → List (CCoinsViewCache O) × Option Coin} (hget : ReadsBelow V below get)
    (hok : LayersOk V (c :: below)) (o : O) :
    LayersOk V ((c.spendCoin below get o).1 :: (c.spendCoin below get o).2.1) ∧
      viewOver V ((c.spendCoin below get o).1 :: (c.spendCoin below get o).2.1) =
        Function.update (viewOver V (c :: below)) o none := by
  obtain ⟨hv, hok', hr, hat⟩ := fetchCoin_spec hget hok o
  unfold CCoinsViewCache.spendCoin
  rcases hg : c.fetchCoin below get o with ⟨c₁, below₁, re⟩
  simp only [hg] at hv hok' hr hat ⊢
  rw [← hv]
  cases re with
  | none =>
    refine ⟨hok', ?_⟩
    funext o'
    by_cases ho : o' = o
    · subst ho
      rw [Function.update_self, hv, ← hr, Option.bind_none]
    · rw [Function.update_of_ne ho]
  | some e =>
    have he := hat e rfl
    have heok := hok'.1 o e he
    by_cases hf : e.fresh = true
    · simp only [hf, if_true]
      refine ⟨⟨fun o' e' he' => ?_, hok'.2⟩, ?_⟩
      · rw [lookup_erase_ite] at he'
        split_ifs at he' with ho
        exact hok'.1 o' e' he'
      · funext o'
        rw [viewOver_cons, lookup_erase_ite]
        by_cases ho : o' = o
        · subst ho
          rw [if_pos rfl, Function.update_self, overEntry_none, heok.fresh hf]
        · rw [if_neg ho, Function.update_of_ne ho, viewOver_cons]
    · simp only [hf, Bool.false_eq_true, if_false]
      refine ⟨⟨fun o' e' he' => ?_, hok'.2⟩, ?_⟩
      · rw [lookup_insert_ite] at he'
        split_ifs at he' with ho
        · cases he'
          exact ⟨(fun h => nomatch h), fun h => absurd h (by simp)⟩
        · exact hok'.1 o' e' he'
      · funext o'
        rw [viewOver_cons, lookup_insert_ite]
        by_cases ho : o' = o
        · subst ho
          rw [if_pos rfl, Function.update_self, overEntry_some]
          rfl
        · rw [if_neg ho, Function.update_of_ne ho, viewOver_cons]

end top

/-! ### Dropping clean entries: `Uncache` and `Trim` -/

section drop

/-- `m'` is `m` without some of its clean entries. -/
def DropsClean (m m' : CCoinsMap O) : Prop :=
  ∀ o, m'.lookup o = m.lookup o ∨ m'.lookup o = none ∧ ∃ e, m.lookup o = some e ∧ e.isClean = true

theorem DropsClean.refl (m : CCoinsMap O) : DropsClean m m := fun _ => .inl rfl

theorem DropsClean.trans {m₁ m₂ m₃ : CCoinsMap O} (h₁₂ : DropsClean m₁ m₂) (h₂₃ : DropsClean m₂ m₃) :
    DropsClean m₁ m₃ := by
  intro o
  rcases h₂₃ o with h | ⟨h, e, he, hc⟩
  · rw [h]
    exact h₁₂ o
  · rcases h₁₂ o with h' | ⟨h', -⟩
    · exact .inr ⟨h, e, h' ▸ he, hc⟩
    · rw [h'] at he
      cases he

theorem dropsClean_erase {m : CCoinsMap O} {o : O} {e : CCoinsCacheEntry} (he : m.lookup o = some e)
    (hc : e.isClean = true) : DropsClean m (m.erase o) := by
  intro o'
  rw [lookup_erase_ite]
  split_ifs with ho
  · subst ho
    exact .inr ⟨rfl, e, he, hc⟩
  · exact .inl rfl

/-- Dropping clean entries keeps a layer's view and its invariant. -/
theorem DropsClean.layer {V : O → Option Coin} {m m' : CCoinsMap O} (h : DropsClean m m') (hok : CacheOk V m) :
    (∀ o, overEntry (m'.lookup o) (V o) = overEntry (m.lookup o) (V o)) ∧ CacheOk V m' := by
  refine ⟨fun o => ?_, fun o e he => ?_⟩
  · rcases h o with h' | ⟨h', e, he, hc⟩
    · rw [h']
    · have hdirty : e.dirty = false := by simp [CCoinsCacheEntry.isClean] at hc; exact hc.1
      rw [h', he, overEntry_none, overEntry_some, (hok o e he).clean hdirty]
  · rcases h o with h' | ⟨h', -⟩
    · exact hok o e (h' ▸ he)
    · rw [h'] at he
      cases he

/-- Replacing the top map by one without some clean entries keeps the
chain's view and invariant. -/
theorem DropsClean.top {V : O → Option Coin} {c : CCoinsViewCache O} {below : List (CCoinsViewCache O)}
    {m' : CCoinsMap O} (h : DropsClean c.cacheCoins m') (hok : LayersOk V (c :: below)) (c' : CCoinsViewCache O)
    (hc' : c'.cacheCoins = m') :
    LayersOk V (c' :: below) ∧ viewOver V (c' :: below) = viewOver V (c :: below) := by
  obtain ⟨hv, hok'⟩ := h.layer hok.1
  subst hc'
  exact ⟨⟨hok', hok.2⟩, funext fun o => hv o⟩

theorem uncache_dropsClean (c : CCoinsViewCache O) (o : O) : DropsClean c.cacheCoins (c.uncache o).cacheCoins := by
  unfold CCoinsViewCache.uncache
  cases he : c.cacheCoins.lookup o with
  | none => exact DropsClean.refl _
  | some e =>
    by_cases hc : e.isClean = true
    · simp only [hc, if_true]
      exact dropsClean_erase he hc
    · simp only [hc, Bool.false_eq_true, if_false]
      exact DropsClean.refl _

variable (usage : CCoinsMap O → Nat) (nTrimSize : Nat)

/-- A walk of `Trim` erases only entries it picks, so only clean ones when it
picks only clean ones. -/
theorem trimWalk_dropsClean (pick : CCoinsCacheEntry → Bool) (hpick : ∀ e, pick e = true → e.isClean = true) :
    ∀ (m : CCoinsMap O) (keys : List O),
      DropsClean m (CCoinsViewCache.trimWalk usage nTrimSize pick m keys).1 := by
  intro m keys
  induction keys generalizing m with
  | nil => exact DropsClean.refl m
  | cons o keys ih =>
    unfold CCoinsViewCache.trimWalk
    split_ifs with hu
    · cases he : m.lookup o with
      | none => exact ih m
      | some e =>
        by_cases hp : pick e = true
        · simp only [hp, if_true]
          exact (dropsClean_erase he (hpick e hp)).trans (ih _)
        · simp only [hp, Bool.false_eq_true, if_false]
          exact ih m
    · exact DropsClean.refl m

/-- Every walk of `Trim` by height picks clean entries only. -/
theorem trimByHeight_dropsClean (best : Nat) :
    ∀ (m : CCoinsMap O) (delta trimHeight : Nat),
      DropsClean m (CCoinsViewCache.trimByHeight usage nTrimSize best m delta trimHeight).1 := by
  intro m delta trimHeight
  induction delta using Nat.strong_induction_on generalizing m trimHeight with
  | _ delta ih =>
    have hwalk := trimWalk_dropsClean usage nTrimSize (fun e => e.isClean && decide (e.coin.nHeight < trimHeight))
      (fun e h => (Bool.and_eq_true _ _).mp h |>.1) m m.keys
    rw [CCoinsViewCache.trimByHeight]
    by_cases hu : nTrimSize < usage m
    · rw [if_pos hu]
      dsimp only
      split
      · next hmore => exact hwalk.trans (ih _ (CCoinsViewCache.trimDeltaStep_lt hmore.2.2) _ _)
      · exact hwalk
    · rw [if_neg hu]
      exact DropsClean.refl m

/-- `Trim` drops clean entries only. -/
theorem trim_dropsClean (c : CCoinsViewCache O) (nTrimHeightDelta : Option Nat) :
    DropsClean c.cacheCoins (c.trim usage nTrimSize nTrimHeightDelta).1 :=
  (trimByHeight_dropsClean usage nTrimSize _ _ _ _).trans
    (trimWalk_dropsClean usage nTrimSize _ (fun _ h => h) _ _)

end drop

/-! ### `Flush` into a cache -/

section flushCache

/-- The entry a parent holds after `BatchWrite` moved the dirty entry `e` up
over its entry `pl`. -/
def mergeUp (e : CCoinsCacheEntry) : Option CCoinsCacheEntry → Option CCoinsCacheEntry
  | none => if e.fresh && e.coin.isSpent then none else some ⟨e.coin, true, e.fresh⟩
  | some p => if p.fresh && e.coin.isSpent then none else some { p with coin := e.coin, dirty := true }

/-- One entry of the loop changes the parent at its key only, there to
`mergeUp`. -/
theorem batchWriteEntry_lookup {parent parent' : CCoinsMap O} {o : O} {e : CCoinsCacheEntry}
    (h : CCoinsViewCache.batchWriteEntry parent o e = .ok parent') (o' : O) :
    parent'.lookup o' = if o' = o then mergeUp e (parent.lookup o) else parent.lookup o' := by
  unfold CCoinsViewCache.batchWriteEntry at h
  cases hl : parent.lookup o with
  | none =>
    simp only [hl] at h
    simp only [mergeUp]
    split_ifs at h with hs <;> cases h
    · simp only [hs, if_true]
      split_ifs with ho
      · rw [ho, hl]
      · rfl
    · simp only [hs, Bool.false_eq_true, if_false, lookup_insert_ite]
  | some p =>
    simp only [hl] at h
    simp only [mergeUp]
    split_ifs at h with hthrow hs <;> cases h
    · simp only [hs, if_true, lookup_erase_ite]
    · simp only [hs, Bool.false_eq_true, if_false, lookup_insert_ite]

/-- One entry of the loop throws only over an unspent parent entry. -/
theorem batchWriteEntry_ok {parent : CCoinsMap O} {o : O} {e : CCoinsCacheEntry}
    (h : e.fresh = true → ∀ p, parent.lookup o = some p → p.coin.isSpent = true) :
    ∃ parent', CCoinsViewCache.batchWriteEntry parent o e = .ok parent' := by
  unfold CCoinsViewCache.batchWriteEntry
  cases hl : parent.lookup o with
  | none => split_ifs <;> exact ⟨_, rfl⟩
  | some p =>
    have hthrow : ¬(e.fresh && !p.coin.isSpent) = true := by
      cases hf : e.fresh
      · simp
      · simp [h hf p hl]
    dsimp only
    rw [if_neg hthrow]
    split_ifs <;> exact ⟨_, rfl⟩

/-- What the loop does at a key: a dirty entry leaves the child and is merged
into the parent; a clean one stays. -/
def flushUp (_ : O) (e : CCoinsCacheEntry) (s : Option CCoinsCacheEntry × Option CCoinsCacheEntry) :
    Option CCoinsCacheEntry × Option CCoinsCacheEntry :=
  if e.dirty then (none, mergeUp e s.2) else s

/-- The loop's body is pointwise, and throws only over an unspent parent
entry under a `FRESH` dirty one. -/
theorem batchWriteStep_pointwise :
    Pointwise (fun (s : CCoinsMap O × CCoinsMap O) o => (s.1.lookup o, s.2.lookup o))
      CCoinsViewCache.batchWriteStep flushUp
      (fun _ e s => e.dirty = true → e.fresh = true → ∀ p, s.2 = some p → p.coin.isSpent = true) where
  at_key s s' k v h := by
    unfold CCoinsViewCache.batchWriteStep at h
    unfold flushUp
    dsimp only at h
    by_cases hd : v.dirty = true
    · rw [if_pos hd] at h ⊢
      obtain ⟨parent, hp, hs'⟩ := Except.bind_eq_ok_iff.mp h
      cases Except.pure_eq_ok_iff.mp hs'
      simp only [AList.lookup_erase, batchWriteEntry_lookup hp, if_true]
    · rw [if_neg hd] at h ⊢
      cases Except.pure_eq_ok_iff.mp h
      rfl
  off_key s s' k v k' hk h := by
    unfold CCoinsViewCache.batchWriteStep at h
    dsimp only at h
    by_cases hd : v.dirty = true
    · rw [if_pos hd] at h
      obtain ⟨parent, hp, hs'⟩ := Except.bind_eq_ok_iff.mp h
      cases Except.pure_eq_ok_iff.mp hs'
      simp only [AList.lookup_erase_ne hk, batchWriteEntry_lookup hp, if_neg hk]
    · rw [if_neg hd] at h
      cases Except.pure_eq_ok_iff.mp h
      rfl
  defined s k v h := by
    unfold CCoinsViewCache.batchWriteStep
    dsimp only
    by_cases hd : v.dirty = true
    · rw [if_pos hd]
      obtain ⟨parent, hp⟩ := batchWriteEntry_ok (fun hf p hl => h hd hf p hl)
      exact ⟨_, by rw [hp]; rfl⟩
    · rw [if_neg hd]
      exact ⟨s, rfl⟩

/-- Moving a dirty entry `e` up over the parent's entry `pl` keeps what the
two layers report, and what the parent then holds agrees with the view below
it. -/
theorem mergeUp_spec {e : CCoinsCacheEntry} {pl : Option CCoinsCacheEntry} {b : Option Coin}
    (he : EntryOk (overEntry pl b) e) (hp : ∀ p, pl = some p → EntryOk b p) :
    overEntry (mergeUp e pl) b = unspentCoin e.coin ∧ ∀ q, mergeUp e pl = some q → EntryOk b q := by
  cases pl with
  | none =>
    simp only [mergeUp]
    split_ifs with hs
    · simp only [Bool.and_eq_true] at hs
      refine ⟨?_, fun q hq => nomatch hq⟩
      rw [overEntry_none, show b = none from he.fresh hs.1, eq_comm, unspentCoin_eq_none]
      exact hs.2
    · exact ⟨rfl, fun q hq => by cases hq; exact ⟨(fun h => nomatch h), he.fresh⟩⟩
  | some p =>
    simp only [mergeUp]
    split_ifs with hs
    · simp only [Bool.and_eq_true] at hs
      refine ⟨?_, fun q hq => nomatch hq⟩
      rw [overEntry_none, (hp p rfl).fresh hs.1, eq_comm, unspentCoin_eq_none]
      exact hs.2
    · exact ⟨rfl, fun q hq => by cases hq; exact ⟨(fun h => nomatch h), (hp p rfl).fresh⟩⟩

omit [DecidableEq O] in
/-- At one key, what the loop of `BatchWrite` leaves in the child and the
parent reports what the two reported, a child entry left there sits over the
parent's untouched entry, and the parent's entry agrees with the view below
it. -/
theorem flushUp_key {o : O} {cl pl cl' pl' : Option CCoinsCacheEntry} {b : Option Coin}
    (hc : ∀ e, cl = some e → EntryOk (overEntry pl b) e) (hp : ∀ q, pl = some q → EntryOk b q)
    (h : (cl', pl') = atKey flushUp o cl (cl, pl)) :
    overEntry cl' (overEntry pl' b) = overEntry cl (overEntry pl b) ∧
      (∀ e, cl' = some e → cl = some e ∧ pl' = pl) ∧ ∀ q, pl' = some q → EntryOk b q := by
  cases cl with
  | none =>
    obtain ⟨rfl, rfl⟩ := Prod.mk.inj h
    exact ⟨rfl, (fun _ he => nomatch he), hp⟩
  | some e =>
    simp only [atKey_some, flushUp] at h
    split_ifs at h with hd
    · obtain ⟨rfl, rfl⟩ := Prod.mk.inj h
      obtain ⟨hv, hq⟩ := mergeUp_spec (hc e rfl) hp
      exact ⟨by rw [overEntry_none, hv, overEntry_some], (fun _ he => nomatch he), hq⟩
    · obtain ⟨rfl, rfl⟩ := Prod.mk.inj h
      exact ⟨rfl, fun _ he => ⟨he, rfl⟩, hp⟩

/-- `Flush` of a cache into the cache below it does not throw, keeps the
invariant, and changes no view of the two: the dirty entries move down. -/
theorem batchWrite_spec {V : O → Option Coin} {c p : CCoinsViewCache O} {below : List (CCoinsViewCache O)}
    (hok : LayersOk V (c :: p :: below)) :
    ∃ m' p', p.batchWrite c.cacheCoins c.hashBlock c.nBestCoinHeight = .ok (m', p') ∧
      LayersOk V ({ c with cacheCoins := m' } :: p' :: below) ∧
      viewOver V ({ c with cacheCoins := m' } :: p' :: below) = viewOver V (c :: p :: below) := by
  obtain ⟨hc, hp, hbelow⟩ : CacheOk (viewOver V (p :: below)) c.cacheCoins ∧
      CacheOk (viewOver V below) p.cacheCoins ∧ LayersOk V below := ⟨hok.1, hok.2.1, hok.2.2⟩
  obtain ⟨s', hs', hget⟩ := foldlM_pointwise batchWriteStep_pointwise c.cacheCoins.entries
    (c.cacheCoins, p.cacheCoins) c.cacheCoins.nodupKeys fun x hx _ hf q hq => by
      have h := hc x.1 x.2 (AList.mem_lookup_iff.mpr hx)
      rw [viewOver_cons, show p.cacheCoins.lookup x.1 = some q from hq] at h
      exact h.below_spent hf
  have hat := fun o => flushUp_key (o := o) (b := viewOver V below o) (fun e he => hc o e he) (fun q hq => hp o q hq)
    (by rw [hget o, after_entries])
  let p' : CCoinsViewCache O :=
    { p with hashBlock := c.hashBlock, nBestCoinHeight := max p.nBestCoinHeight c.nBestCoinHeight,
             cacheCoins := s'.2 }
  refine ⟨s'.1, p', by rw [CCoinsViewCache.batchWrite, hs']; rfl, ⟨fun o e he => ?_, fun o q hq => (hat o).2.2 q hq,
    hbelow⟩, funext fun o => (hat o).1⟩
  obtain ⟨hkept, hsame⟩ := (hat o).2.1 e he
  have h := hc o e hkept
  rw [viewOver_cons] at h ⊢
  rw [show p'.cacheCoins.lookup o = p.cacheCoins.lookup o from hsame]
  exact h

end flushCache

/-! ### `Flush` into the database -/

section flushDB

variable (evict : Bool)

/-- What the database's loop does at a key. -/
def flushDown (_ : O) (e : CCoinsCacheEntry) (s : Option CCoinsCacheEntry × Option Coin) :
    Option CCoinsCacheEntry × Option Coin :=
  if e.dirty then
    if e.coin.isSpent then (none, none)
    else if evict then (none, some e.coin)
    else (some { e with dirty := false, fresh := false }, some e.coin)
  else s

omit [DecidableEq O] in
/-- At one key, what the database's loop leaves in the cache reports what the
database then holds, which the cache reported before, and agrees with it. -/
theorem flushDown_key {o : O} {cl cl' : Option CCoinsCacheEntry} {dl dl' : Option Coin}
    (hc : ∀ e, cl = some e → EntryOk (dl.bind unspentCoin) e) (h : (cl', dl') = atKey (flushDown evict) o cl (cl, dl)) :
    overEntry cl' (dl'.bind unspentCoin) = overEntry cl (dl.bind unspentCoin) ∧
      ∀ e, cl' = some e → EntryOk (dl'.bind unspentCoin) e := by
  cases cl with
  | none =>
    obtain ⟨rfl, rfl⟩ := Prod.mk.inj h
    exact ⟨rfl, (fun _ he => nomatch he)⟩
  | some e =>
    have heok := hc e rfl
    simp only [atKey_some, flushDown] at h
    split_ifs at h with hd hs hev
    · obtain ⟨rfl, rfl⟩ := Prod.mk.inj h
      exact ⟨(unspentCoin_eq_none.mpr hs).symm, (fun _ he => nomatch he)⟩
    · obtain ⟨rfl, rfl⟩ := Prod.mk.inj h
      exact ⟨by simp, (fun _ he => nomatch he)⟩
    · obtain ⟨rfl, rfl⟩ := Prod.mk.inj h
      refine ⟨by simp, fun e' he' => ?_⟩
      cases he'
      exact ⟨fun _ => by simp, (fun h => nomatch h)⟩
    · obtain ⟨rfl, rfl⟩ := Prod.mk.inj h
      exact ⟨rfl, fun e' he' => by cases he'; exact heok⟩

/-- The database's `BatchWrite`, key by key. -/
theorem dbBatchWrite_lookup (db : CCoinsViewDB O) (m : CCoinsMap O) (hashBlock : Uint256) (o : O) :
    ((db.batchWrite evict m hashBlock).1.lookup o, (db.batchWrite evict m hashBlock).2.coins.lookup o) =
      atKey (flushDown evict) o (m.lookup o) (m.lookup o, db.coins.lookup o) := by
  refine (foldl_pointwise (fun (s : CCoinsMap O × AList fun _ : O => Coin) o => (s.1.lookup o, s.2.lookup o))
    (F := flushDown evict) (f := fun s x => if x.2.dirty then CCoinsViewDB.batchWriteEntry evict s x.1 x.2 else s)
    (fun s k v => ?_) (fun s k v k' hk => ?_) m.entries m.nodupKeys (m, db.coins) o).trans (after_entries _ _ _ o)
  · unfold flushDown CCoinsViewDB.batchWriteEntry
    split_ifs <;> simp
  · unfold CCoinsViewDB.batchWriteEntry
    split_ifs <;> simp [AList.lookup_erase_ne hk, AList.lookup_insert_ne hk]

/-- `Flush` of the bottom cache into the database keeps the invariant and
changes no view: the dirty entries are written. -/
theorem dbBatchWrite_spec {db : CCoinsViewDB O} {c : CCoinsViewCache O} (hok : LayersOk db.view [c]) :
    LayersOk (db.batchWrite evict c.cacheCoins c.hashBlock).2.view
        [{ c with cacheCoins := (db.batchWrite evict c.cacheCoins c.hashBlock).1 }] ∧
      viewOver (db.batchWrite evict c.cacheCoins c.hashBlock).2.view
        [{ c with cacheCoins := (db.batchWrite evict c.cacheCoins c.hashBlock).1 }] = viewOver db.view [c] := by
  have hat := fun o => flushDown_key evict (fun e he => hok.1 o e he) (dbBatchWrite_lookup evict db c.cacheCoins
    c.hashBlock o)
  exact ⟨⟨fun o e he => (hat o).2 e he, trivial⟩, funext fun o => (hat o).1⟩

end flushDB

/-- `Flush` of any layer does not throw, keeps the invariant, keeps the
number of layers, and changes no view of the layers above it. -/
theorem stackFlush_spec (evict : Bool) :
    ∀ (i : Nat) (db : CCoinsViewDB O) (L : List (CCoinsViewCache O)), LayersOk db.view L →
      ∃ db' L', stackFlush evict db i L = .ok (db', L') ∧ LayersOk db'.view L' ∧
        viewOver db'.view L' = viewOver db.view L ∧ L'.length = L.length
  | _, db, [], _ => ⟨db, [], by cases ‹Nat› <;> rfl, trivial, rfl, rfl⟩
  | 0, db, [c], hok => by
    obtain ⟨hok', hv⟩ := dbBatchWrite_spec evict hok
    exact ⟨_, _, rfl, hok', hv, rfl⟩
  | 0, db, c :: p :: below, hok => by
    obtain ⟨m', p', hb, hok', hv⟩ := batchWrite_spec hok
    exact ⟨db, _, by rw [stackFlush, hb]; rfl, hok', hv, rfl⟩
  | i + 1, db, c :: below, hok => by
    obtain ⟨db', below', hf, hok', hv, hlen⟩ := stackFlush_spec evict i db below hok.2
    exact ⟨db', c :: below', by rw [stackFlush, hf]; rfl, ⟨hv ▸ hok.1, hok'⟩, viewOver_cons_congr hv c,
      by rw [List.length_cons, List.length_cons, hlen]⟩

end Membercoin
