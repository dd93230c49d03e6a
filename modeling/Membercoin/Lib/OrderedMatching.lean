import Mathlib

/-!
# Matching a list into a subsequence of another, greedily

`greedyMatch r xs ys` scans `ys` once and pairs each element of `xs`, in
order, with the first unused element of `ys` it is related to. It succeeds
exactly when `xs` embeds into `ys` along a strictly increasing map of
positions (`Embeds`): taking the first partner never does worse than taking
a later one, since every later partner is still available after it.

The proof goes through the sublist form of an embedding (`embeds_iff`), where
the two cases of the scan are the two constructors of `List.Sublist`.
-/

namespace OrderedMatching

variable {α β : Type} (r : α → β → Bool)

/-- The greedy scan. -/
def greedyMatch : List α → List β → Bool
  | [], _ => true
  | _ :: _, [] => false
  | x :: xs, y :: ys => if r x y then greedyMatch xs ys else greedyMatch (x :: xs) ys

/-- `xs` embeds into `ys`: a strictly increasing map of positions pairs
each element of `xs` with a related element of `ys`. -/
def Embeds (xs : List α) (ys : List β) : Prop :=
  ∃ f : Fin xs.length → Fin ys.length, StrictMono f ∧ ∀ i, r xs[i] ys[f i] = true

/-- The sublist form: some subsequence of `ys` is related to `xs`
pointwise. -/
def EmbedsSublist (xs : List α) (ys : List β) : Prop :=
  ∃ zs, List.Sublist zs ys ∧ List.Forall₂ (fun x y => r x y = true) xs zs

variable {r}

@[simp] theorem greedyMatch_nil_left (ys : List β) : greedyMatch r [] ys = true := by
  cases ys <;> rfl

@[simp] theorem greedyMatch_cons_nil (x : α) (xs : List α) : greedyMatch r (x :: xs) [] = false :=
  rfl

theorem greedyMatch_cons_cons (x : α) (xs : List α) (y : β) (ys : List β) :
    greedyMatch r (x :: xs) (y :: ys) =
      if r x y then greedyMatch r xs ys else greedyMatch r (x :: xs) ys :=
  rfl

theorem embeds_iff {xs : List α} {ys : List β} : Embeds r xs ys ↔ EmbedsSublist r xs ys := by
  constructor
  · rintro ⟨f, hf, hrel⟩
    refine ⟨List.ofFn fun i => ys[f i], ?_, ?_⟩
    · rw [List.sublist_iff_exists_fin_orderEmbedding_get_eq]
      refine ⟨(Fin.castOrderIso (List.length_ofFn)).toOrderEmbedding.trans
        (OrderEmbedding.ofStrictMono f hf), ?_⟩
      intro i
      simp only [List.get_eq_getElem, List.getElem_ofFn]
      rfl
    · rw [List.forall₂_iff_get]
      refine ⟨(List.length_ofFn).symm, ?_⟩
      intro i h₁ h₂
      simpa using hrel ⟨i, h₁⟩
  · rintro ⟨zs, hsub, hrel⟩
    obtain ⟨g, hg⟩ := List.sublist_iff_exists_fin_orderEmbedding_get_eq.mp hsub
    have hlen := hrel.length_eq
    refine ⟨fun i => g (Fin.cast hlen i), fun i j hij => g.strictMono hij, ?_⟩
    intro i
    have hi := (List.forall₂_iff_get.mp hrel).2 i i.2 (hlen ▸ i.2)
    have hgi := hg (Fin.cast hlen i)
    simp only [List.get_eq_getElem, Fin.val_cast] at hi hgi
    simp only [Fin.getElem_fin]
    rw [← hgi]
    exact hi

theorem greedyMatch_of_embedsSublist {xs : List α} {ys : List β} (h : EmbedsSublist r xs ys) :
    greedyMatch r xs ys = true := by
  induction xs, ys using greedyMatch.induct r with
  | case1 ys => simp
  | case2 x xs =>
    obtain ⟨zs, hsub, hrel⟩ := h
    rw [List.sublist_nil.mp hsub] at hrel
    cases hrel
  | case3 x xs y ys hxy ih =>
    obtain ⟨zs, hsub, hrel⟩ := h
    rw [greedyMatch_cons_cons, if_pos hxy]
    obtain ⟨z, zs, rfl⟩ : ∃ z zs', zs = z :: zs' := List.exists_cons_of_ne_nil (by
      rintro rfl
      cases hrel)
    rw [List.forall₂_cons] at hrel
    apply ih
    rcases List.sublist_cons_iff.mp hsub with hsub | ⟨zs', heq, hsub⟩
    · exact ⟨zs, (List.sublist_cons_self z zs).trans hsub, hrel.2⟩
    · rw [List.cons.injEq] at heq
      rw [← heq.2] at hsub
      exact ⟨zs, hsub, hrel.2⟩
  | case4 x xs y ys hxy ih =>
    obtain ⟨zs, hsub, hrel⟩ := h
    rw [greedyMatch_cons_cons, if_neg hxy]
    apply ih
    rcases List.sublist_cons_iff.mp hsub with hsub | ⟨zs', heq, -⟩
    · exact ⟨zs, hsub, hrel⟩
    · rw [heq, List.forall₂_cons] at hrel
      exact absurd hrel.1 hxy

theorem embedsSublist_of_greedyMatch {xs : List α} {ys : List β} (h : greedyMatch r xs ys = true) :
    EmbedsSublist r xs ys := by
  induction xs, ys using greedyMatch.induct r with
  | case1 ys => exact ⟨[], List.nil_sublist ys, .nil⟩
  | case2 x xs => cases h
  | case3 x xs y ys hxy ih =>
    rw [greedyMatch_cons_cons, if_pos hxy] at h
    obtain ⟨zs, hsub, hrel⟩ := ih h
    exact ⟨y :: zs, hsub.cons_cons y, .cons hxy hrel⟩
  | case4 x xs y ys hxy ih =>
    rw [greedyMatch_cons_cons, if_neg hxy] at h
    obtain ⟨zs, hsub, hrel⟩ := ih h
    exact ⟨zs, hsub.cons y, hrel⟩

/-- The greedy scan decides whether `xs` embeds into `ys`. -/
theorem greedyMatch_iff {xs : List α} {ys : List β} :
    greedyMatch r xs ys = true ↔ Embeds r xs ys := by
  rw [embeds_iff]
  exact ⟨embedsSublist_of_greedyMatch, greedyMatch_of_embedsSublist⟩

/-- More elements than partners left: the scan fails. -/
theorem greedyMatch_of_length_lt {xs : List α} {ys : List β} (h : ys.length < xs.length) :
    greedyMatch r xs ys = false := by
  cases hm : greedyMatch r xs ys
  · rfl
  · obtain ⟨zs, hsub, hrel⟩ := embedsSublist_of_greedyMatch hm
    have := hsub.length_le
    rw [← hrel.length_eq] at this
    omega

end OrderedMatching
