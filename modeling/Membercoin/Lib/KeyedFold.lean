import Mathlib.Data.List.AList

/-!
# Loops over a map that change one key at a time

A loop over the entries of a map with distinct keys, whose body changes the
state only at the key of the entry it is given, computes its result key by
key: at a key of the map, the body's update applied to what was there before
the loop; at any other key, what was there (`foldlM_pointwise`, and
`foldl_pointwise` for a body that cannot fail). The state is seen through
`get : σ → K → γ`, so it may be several maps read at one key.
-/

namespace KeyedFold

section lookup

variable {K β : Type} [DecidableEq K]

/-- Reading an association list after an insert, at any key. -/
theorem lookup_insert_ite (s : AList fun _ : K => β) (k k' : K) (b : β) :
    (s.insert k b).lookup k' = if k' = k then some b else s.lookup k' := by
  split_ifs with h
  · subst h
    exact AList.lookup_insert s
  · exact AList.lookup_insert_ne h

/-- Reading an association list after an erase, at any key. -/
theorem lookup_erase_ite (s : AList fun _ : K => β) (k k' : K) : (s.erase k).lookup k' = if k' = k then none else s.lookup k' := by
  split_ifs with h
  · subst h
    exact AList.lookup_erase k' s
  · exact AList.lookup_erase_ne h

end lookup

variable {K V σ γ ε : Type} [DecidableEq K] (get : σ → K → γ)

/-- `step` changes the state at the key of its entry only, there to `F` of
the entry and the value before, and does not fail where `ok` holds. -/
structure Pointwise (step : σ → (Σ _ : K, V) → Except ε σ) (F : K → V → γ → γ) (ok : K → V → γ → Prop) :
    Prop where
  at_key : ∀ s s' k v, step s ⟨k, v⟩ = .ok s' → get s' k = F k v (get s k)
  off_key : ∀ s s' k v k', k' ≠ k → step s ⟨k, v⟩ = .ok s' → get s' k' = get s k'
  defined : ∀ s k v, ok k v (get s k) → ∃ s', step s ⟨k, v⟩ = .ok s'

/-- The value `x` at key `k`, updated by `F` with the entry there if there is
one. -/
def atKey (F : K → V → γ → γ) (k : K) (l : Option V) (x : γ) : γ :=
  match l with
  | some v => F k v x
  | none => x

omit [DecidableEq K] in
@[simp] theorem atKey_some (F : K → V → γ → γ) (k : K) (v : V) (x : γ) : atKey F k (some v) x = F k v x := rfl

omit [DecidableEq K] in
@[simp] theorem atKey_none (F : K → V → γ → γ) (k : K) (x : γ) : atKey F k none x = x := rfl

/-- The value at `k` after the loop over `L`. -/
def after (F : K → V → γ → γ) (L : List (Σ _ : K, V)) (g : K → γ) (k : K) : γ := atKey F k (L.dlookup k) (g k)

variable {get}

theorem after_cons_self (F : K → V → γ → γ) (L : List (Σ _ : K, V)) (k : K) (v : V) (g : K → γ) :
    after F (⟨k, v⟩ :: L) g k = F k v (g k) := by
  rw [after, List.dlookup_cons_eq, atKey_some]

theorem after_cons_ne (F : K → V → γ → γ) (L : List (Σ _ : K, V)) {k k' : K} (hk : k' ≠ k) (v : V)
    (g : K → γ) : after F (⟨k, v⟩ :: L) g k' = after F L g k' := by
  rw [after, after, List.dlookup_cons_ne L (⟨k, v⟩ : Σ _ : K, V) hk]

theorem after_of_notMem (F : K → V → γ → γ) {L : List (Σ _ : K, V)} {k : K} (hk : k ∉ L.keys) (g : K → γ) :
    after F L g k = g k := by
  rw [after, List.dlookup_eq_none.mpr hk, atKey_none]

/-- Over the entries of an association list, `after` reads the list at the
key. -/
theorem after_entries (F : K → V → γ → γ) (s : AList fun _ : K => V) (g : K → γ) (k : K) :
    after F s.entries g k = atKey F k (s.lookup k) (g k) := rfl

/-- A loop whose body is pointwise, over distinct keys each of which it
accepts, succeeds and computes `after` at every key. -/
theorem foldlM_pointwise {step : σ → (Σ _ : K, V) → Except ε σ} {F : K → V → γ → γ} {ok : K → V → γ → Prop}
    (h : Pointwise get step F ok) :
    ∀ (L : List (Σ _ : K, V)) (s : σ), L.NodupKeys → (∀ x ∈ L, ok x.1 x.2 (get s x.1)) →
      ∃ s', L.foldlM step s = .ok s' ∧ ∀ k, get s' k = after F L (get s) k := by
  intro L
  induction L with
  | nil => exact fun s _ _ => ⟨s, rfl, fun k => rfl⟩
  | cons x L ih =>
    obtain ⟨k, v⟩ := x
    intro s hnd hok
    obtain ⟨hk, hnd'⟩ := List.nodupKeys_cons.mp hnd
    obtain ⟨s₁, hs₁⟩ := h.defined s k v (hok ⟨k, v⟩ List.mem_cons_self)
    have hoff : ∀ k' ∈ L.keys, get s₁ k' = get s k' := fun k' hk' =>
      h.off_key s s₁ k v k' (fun he => hk (he ▸ hk')) hs₁
    obtain ⟨s', hs', hget⟩ := ih s₁ hnd' fun x hx => by
      rw [hoff x.1 (List.mem_keys_of_mem hx)]
      exact hok x (List.mem_cons_of_mem _ hx)
    refine ⟨s', by rw [List.foldlM_cons, hs₁]; exact hs', fun k' => ?_⟩
    by_cases hkk : k' = k
    · subst hkk
      rw [hget, after_of_notMem F hk, after_cons_self F L k' v, h.at_key s s₁ k' v hs₁]
    · rw [hget, after_cons_ne F L hkk, after, after, h.off_key s s₁ k v k' hkk hs₁]

omit [DecidableEq K] in
theorem foldlM_ok_eq_foldl (f : σ → (Σ _ : K, V) → σ) :
    ∀ (L : List (Σ _ : K, V)) (s : σ), L.foldlM (fun s x => (Except.ok (f s x) : Except ε σ)) s = .ok (L.foldl f s)
  | [], _ => rfl
  | _ :: L, s => by rw [List.foldlM_cons, List.foldl_cons]; exact foldlM_ok_eq_foldl f L _

/-- A loop whose body cannot fail and is pointwise computes `after` at
every key. -/
theorem foldl_pointwise (get : σ → K → γ) {f : σ → (Σ _ : K, V) → σ} {F : K → V → γ → γ}
    (hat : ∀ s k v, get (f s ⟨k, v⟩) k = F k v (get s k))
    (hoff : ∀ s k v k', k' ≠ k → get (f s ⟨k, v⟩) k' = get s k') (L : List (Σ _ : K, V)) (hnd : L.NodupKeys)
    (s : σ) (k : K) : get (L.foldl f s) k = after F L (get s) k := by
  have h : Pointwise (ε := Empty) get (fun s x => .ok (f s x)) F fun _ _ _ => True :=
    ⟨fun s s' k v hs => by cases hs; exact hat s k v, fun s s' k v k' hk hs => by cases hs; exact hoff s k v k' hk,
      fun s k v _ => ⟨_, rfl⟩⟩
  obtain ⟨s', hs', hget⟩ := foldlM_pointwise h L s hnd fun _ _ => trivial
  rw [foldlM_ok_eq_foldl] at hs'
  cases hs'
  exact hget k

end KeyedFold
