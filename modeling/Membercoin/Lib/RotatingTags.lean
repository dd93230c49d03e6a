import Mathlib

/-!
# Three rotating generation tags

A store that forgets old entries in bulk can tag each position with the
generation that last wrote it. Generations are numbered `0, 1, 2, ...` and
write the tags `1, 2, 3, 1, ...` (`genTag`); `0` means unset. Inserts come
`E` to a generation, and the first insert of each new generation clears every
position that holds the tag it is about to reuse, the tag of the generation
three back (`insertAt`).

Nothing inserted in the current generation or the two before it is lost
(`runTags_ne_zero`). The invariant `Live` says why: a position an insert of
generation `a` wrote holds the tag of a generation between `a` and the
current one, and three consecutive generations have three different tags, so
the clearing at the start of generation `a + 3` is the first that can touch
it.
-/

namespace RotatingTags

variable {P : Type} [DecidableEq P]

/-- The tag generation `a` writes. -/
def genTag (a : Nat) : Nat := a % 3 + 1

/-- Clear the positions that hold tag `t`. -/
def wipe (tags : P → Nat) (t : Nat) : P → Nat := fun p => if tags p = t then 0 else tags p

/-- Give the positions `ps` tag `t`. -/
def mark (tags : P → Nat) (ps : List P) (t : Nat) : P → Nat := fun p => if p ∈ ps then t else tags p

/-- Insert number `i`, of generation `i / E`, writing the positions `ps`. -/
def insertAt (E : Nat) (tags : P → Nat) (i : Nat) (ps : List P) : P → Nat :=
  mark (if 0 < i ∧ i % E = 0 then wipe tags (genTag (i / E)) else tags) ps (genTag (i / E))

/-- The tags after the inserts `pss`, starting from all unset. -/
def runTags (E : Nat) (pss : List (List P)) : P → Nat :=
  pss.zipIdx.foldl (fun tags x => insertAt E tags x.2 x.1) fun _ => 0

theorem runTags_append_singleton (E : Nat) (pss : List (List P)) (ps : List P) :
    runTags E (pss ++ [ps]) = insertAt E (runTags E pss) pss.length ps := by
  simp [runTags, List.zipIdx_append]

@[simp] theorem runTags_nil (E : Nat) : runTags E ([] : List (List P)) = fun _ => 0 := rfl

theorem mark_nil (tags : P → Nat) (t : Nat) : mark tags [] t = tags := by
  funext p
  simp [mark]

theorem mark_append_singleton (tags : P → Nat) (ps : List P) (x : P) (t : Nat) (p : P) :
    mark tags (ps ++ [x]) t p = if p = x then t else mark tags ps t p := by
  unfold mark
  by_cases hpx : p = x
  · simp [hpx]
  · simp [hpx]

/-- `mark` at a position reads the old tag only there. -/
theorem mark_congr {tags tags' : P → Nat} {p : P} (h : tags p = tags' p) (ps : List P) (t : Nat) :
    mark tags ps t p = mark tags' ps t p := by
  unfold mark
  rw [h]

theorem genTag_ne_zero (a : Nat) : genTag a ≠ 0 := Nat.succ_ne_zero _

theorem genTag_lt (a : Nat) : genTag a < 4 := by
  unfold genTag
  omega

theorem genTag_succ (a : Nat) : genTag (a + 1) = if genTag a + 1 = 4 then 1 else genTag a + 1 := by
  unfold genTag
  split <;> omega

/-- Generations less than three apart have different tags. -/
theorem genTag_ne {a b : Nat} (hab : a < b) (hba : b ≤ a + 2) : genTag a ≠ genTag b := by
  unfold genTag
  omega

/-- At the first insert of a generation, the previous insert was in the
generation before. -/
theorem pred_div_succ {N E : Nat} (hE : 0 < E) (hN : 0 < N) (hmod : N % E = 0) :
    (N - 1) / E + 1 = N / E := by
  have hdiv : N / E * E = N := Nat.div_mul_cancel (Nat.dvd_of_mod_eq_zero hmod)
  have hpos : 0 < N / E := by
    rcases Nat.eq_zero_or_pos (N / E) with h | h
    · rw [h, Nat.zero_mul] at hdiv
      omega
    · exact h
  have hpred : (N - 1) / E = N / E - 1 := by
    apply Nat.div_eq_of_lt_le
    · rw [Nat.sub_one_mul]
      omega
    · rw [Nat.sub_add_cancel hpos]
      omega
  omega

/-- Inside a generation, the previous insert was in the same one. -/
theorem pred_div_of_mod_ne {N E : Nat} (hN : 0 < N) (hmod : N % E ≠ 0) : (N - 1) / E = N / E := by
  rcases Nat.eq_zero_or_pos E with hE | hE
  · subst hE
    simp
  apply Nat.div_eq_of_lt_le
  · have hle := Nat.div_mul_le_self N E
    have hne : N / E * E ≠ N := by
      intro heq
      apply hmod
      rw [← heq, Nat.mul_mod_left]
    omega
  · have hlt : N < N / E * E + E := Nat.lt_div_mul_add hE
    rw [Nat.succ_mul]
    omega

/-- The inserts of the current generation after `N` inserts: none before the
first, and then `1` to `E`. -/
def genCount (E N : Nat) : Nat := if N = 0 then 0 else (N - 1) % E + 1

theorem genCount_succ (E N : Nat) : genCount E (N + 1) = N % E + 1 := by
  simp [genCount]

theorem add_one_mod {M E : Nat} (hE : 0 < E) :
    (M + 1) % E = if M % E + 1 = E then 0 else M % E + 1 := by
  have hr := Nat.mod_lt M hE
  have hsplit : M + 1 = (M % E + 1) + E * (M / E) := by
    have := Nat.mod_add_div M E
    omega
  rw [hsplit, Nat.add_mul_mod_self_left]
  split
  · rename_i hfull
    rw [hfull, Nat.mod_self]
  · exact Nat.mod_eq_of_lt (by omega)

/-- The counter is full exactly before the first insert of a new
generation. -/
theorem genCount_eq_iff {E N : Nat} (hE : 0 < E) : genCount E N = E ↔ 0 < N ∧ N % E = 0 := by
  cases N with
  | zero =>
    simp only [genCount, if_true, Nat.lt_irrefl, false_and, iff_false]
    omega
  | succ M =>
    rw [genCount_succ, add_one_mod hE]
    split <;> simp [*]

/-- Before it is full, the counter is the position in the generation. -/
theorem genCount_of_ne {E N : Nat} (hE : 0 < E) (hne : genCount E N ≠ E) : genCount E N = N % E := by
  cases N with
  | zero => simp [genCount]
  | succ M =>
    rw [genCount_succ] at hne ⊢
    rw [add_one_mod hE, if_neg hne]

/-- Every position an insert of the last three generations wrote holds the
tag of a generation between its own and the current one. -/
def Live (E : Nat) (pss : List (List P)) (tags : P → Nat) : Prop :=
  ∀ k (hk : k < pss.length), (pss.length - 1) / E ≤ k / E + 2 → ∀ p ∈ pss[k],
    ∃ a, k / E ≤ a ∧ a ≤ (pss.length - 1) / E ∧ tags p = genTag a

omit [DecidableEq P] in
theorem live_nil (E : Nat) : Live E ([] : List (List P)) fun _ => 0 := by
  intro k hk
  simp at hk

/-- One insert keeps `Live`: its own positions get the current tag, and the
clearing at a new generation only hits the tag of the generation three
back. -/
theorem Live.insertAt {E : Nat} (hE : 0 < E) {pss : List (List P)} {tags : P → Nat}
    (hlive : Live E pss tags) (ps : List P) :
    Live E (pss ++ [ps]) (RotatingTags.insertAt E tags pss.length ps) := by
  intro k hk hwin p hp
  rw [List.length_append, List.length_singleton, Nat.add_sub_cancel] at hwin ⊢
  rw [List.length_append, List.length_singleton] at hk
  simp only [RotatingTags.insertAt, mark]
  by_cases hpin : p ∈ ps
  · rw [if_pos hpin]
    exact ⟨pss.length / E, Nat.div_le_div_right (by omega), le_rfl, rfl⟩
  · rw [if_neg hpin]
    have hkN : k < pss.length := by
      by_contra hge
      have hkeq : k = pss.length := by omega
      subst hkeq
      rw [List.getElem_append_right (le_refl _)] at hp
      simp at hp
      exact hpin hp
    rw [List.getElem_append_left hkN] at hp
    have hprev : (pss.length - 1) / E ≤ pss.length / E := Nat.div_le_div_right (by omega)
    obtain ⟨a, hka, haN, htag⟩ := hlive k hkN (by omega) p hp
    by_cases hnew : 0 < pss.length ∧ pss.length % E = 0
    · have hsucc := pred_div_succ hE hnew.1 hnew.2
      have hne : genTag a ≠ genTag (pss.length / E) := genTag_ne (by omega) (by omega)
      rw [if_pos hnew]
      simp only [wipe, htag, if_neg hne]
      exact ⟨a, hka, by omega, rfl⟩
    · have hsame : (pss.length - 1) / E = pss.length / E :=
        pred_div_of_mod_ne (by omega) (fun h => hnew ⟨by omega, h⟩)
      rw [if_neg hnew]
      exact ⟨a, hka, by omega, htag⟩

theorem live_runTags {E : Nat} (hE : 0 < E) (pss : List (List P)) : Live E pss (runTags E pss) := by
  induction pss using List.reverseRecOn with
  | nil => exact live_nil E
  | append_singleton pss ps ih =>
    rw [runTags_append_singleton]
    exact ih.insertAt hE ps

/-- Nothing inserted in the current generation or the two before it is
lost. -/
theorem runTags_ne_zero {E : Nat} (hE : 0 < E) (pss : List (List P)) {k : Nat} (hk : k < pss.length)
    (hwin : (pss.length - 1) / E ≤ k / E + 2) {p : P} (hp : p ∈ pss[k]) : runTags E pss p ≠ 0 := by
  obtain ⟨a, -, -, htag⟩ := live_runTags hE pss k hk hwin p hp
  rw [htag]
  exact genTag_ne_zero a

/-- The last `2 * E` inserts lie in the current generation and the two
before it. -/
theorem window_of_recent {E N k : Nat} (hE : 0 < E) (hk : N ≤ k + 2 * E) :
    (N - 1) / E ≤ k / E + 2 := by
  calc (N - 1) / E ≤ (k + 2 * E) / E := Nat.div_le_div_right (by omega)
    _ = k / E + 2 := Nat.add_mul_div_right k 2 hE

end RotatingTags
