import Mathlib

/-!
# Filling a bit buffer block by block

A serializer that packs fixed-width fields into a buffer writes field `i` at
positions `i * w` to `i * w + w - 1`, each write checked against the end of
the buffer, and later reads words back out of the buffer by OR-ing shifted
bits. This module proves the facts such loops rest on.

* A run of checked writes at `off`, ..., `off + w - 1` either fits, leaving
  `overwrite l off w f` (`foldlM_setChecked`), or fails at the first position
  past the end (`foldlM_setChecked_eq_none`).
* An outer loop that writes block `i` for every `i < m` leaves position `k`
  of the first `m * w` holding entry `k % w` of block `k / w`
  (`foldlM_blocks`). It fails as soon as one block does not fit
  (`foldlM_blocks_eq_none`).
* `orBits f w` OR-s `f j <<< j` for `j < w`, and below `w` bit `k` of the
  result is `f k` (`testBit_orBits`).
-/

namespace BitBuffer

variable {α : Type}

/-- `l[k] = v`, defined only inside the buffer. -/
def setChecked (l : List α) (k : Nat) (v : α) : Option (List α) :=
  if k < l.length then some (l.set k v) else none

/-- `l` with `f j` at position `off + j` for every `j < w`. -/
def overwrite (l : List α) (off w : Nat) (f : Nat → α) : List α :=
  l.mapIdx fun k x => if off ≤ k ∧ k < off + w then f (k - off) else x

/-- `l` with entry `k % w` of block `k / w` at every position `k < m * w`. -/
def fillBlocks (l : List α) (m w : Nat) (F : Nat → Nat → α) : List α :=
  l.mapIdx fun k x => if k < m * w then F (k / w) (k % w) else x

@[simp] theorem length_overwrite (l : List α) (off w : Nat) (f : Nat → α) :
    (overwrite l off w f).length = l.length :=
  List.length_mapIdx

@[simp] theorem length_fillBlocks (l : List α) (m w : Nat) (F : Nat → Nat → α) :
    (fillBlocks l m w F).length = l.length :=
  List.length_mapIdx

theorem getElem?_fillBlocks (l : List α) (m w : Nat) (F : Nat → Nat → α) (k : Nat) :
    (fillBlocks l m w F)[k]? = l[k]?.map fun x => if k < m * w then F (k / w) (k % w) else x := by
  simp [fillBlocks, List.getElem?_mapIdx]

theorem getD_fillBlocks_of_lt (l : List α) (m w : Nat) (F : Nat → Nat → α) (d : α) {k : Nat}
    (hk : k < m * w) (hl : m * w ≤ l.length) :
    (fillBlocks l m w F).getD k d = F (k / w) (k % w) := by
  rw [List.getD_eq_getElem?_getD, getElem?_fillBlocks, List.getElem?_eq_getElem (by omega)]
  simp [hk]

theorem fillBlocks_zero (l : List α) (w : Nat) (F : Nat → Nat → α) : fillBlocks l 0 w F = l := by
  apply List.ext_getElem
  · simp
  · intro k h₁ h₂
    simp [fillBlocks]

theorem overwrite_zero (l : List α) (off : Nat) (f : Nat → α) : overwrite l off 0 f = l := by
  apply List.ext_getElem
  · simp
  · intro k h₁ h₂
    simp only [overwrite, List.getElem_mapIdx]
    rw [if_neg (by omega)]

/-- One more write at the end of the window extends it. -/
theorem overwrite_set (l : List α) (off w : Nat) (f : Nat → α) :
    (overwrite l off w f).set (off + w) (f w) = overwrite l off (w + 1) f := by
  apply List.ext_getElem
  · simp
  · intro k h₁ h₂
    simp only [List.getElem_set, overwrite, List.getElem_mapIdx]
    by_cases hk : off + w = k
    · rw [if_pos hk, if_pos (by omega)]
      congr
      omega
    · rw [if_neg hk]
      by_cases hin : off ≤ k ∧ k < off + w
      · rw [if_pos hin, if_pos (by omega)]
      · rw [if_neg hin, if_neg (by omega)]

/-- A window of checked writes that fits in the buffer. -/
theorem foldlM_setChecked (l : List α) (off w : Nat) (g : Nat → Option α) (f : Nat → α)
    (hg : ∀ j < w, g j = some (f j)) (h : off + w ≤ l.length) :
    (List.range w).foldlM (fun l j => g j >>= setChecked l (j + off)) l =
      some (overwrite l off w f) := by
  induction w with
  | zero => simp [overwrite_zero]
  | succ w ih =>
    have hbefore := ih (fun j hj => hg j (by omega)) (by omega)
    have hin : w + off < (overwrite l off w f).length := by
      rw [length_overwrite]
      omega
    rw [List.range_succ, List.foldlM_append, hbefore]
    simp only [Option.bind_eq_bind, Option.bind_some, List.foldlM_cons, List.foldlM_nil,
      hg w (by omega), setChecked, if_pos hin]
    rw [Nat.add_comm w off, overwrite_set]
    rfl

/-- A window of checked writes that runs past the end of the buffer fails. -/
theorem foldlM_setChecked_eq_none (l : List α) (off w : Nat) (g : Nat → Option α) (f : Nat → α)
    (hg : ∀ j < w, g j = some (f j)) (hw : 0 < w) (h : l.length < off + w) :
    (List.range w).foldlM (fun l j => g j >>= setChecked l (j + off)) l = none := by
  induction w with
  | zero => omega
  | succ w ih =>
    rw [List.range_succ, List.foldlM_append]
    by_cases hprev : 0 < w ∧ l.length < off + w
    · rw [ih (fun j hj => hg j (by omega)) hprev.1 hprev.2]
      rfl
    · have hbefore : (List.range w).foldlM (fun l j => g j >>= setChecked l (j + off)) l =
          some (overwrite l off w f) := by
        rcases Nat.eq_zero_or_pos w with rfl | hpos
        · simp [overwrite_zero]
        · exact foldlM_setChecked l off w g f (fun j hj => hg j (by omega)) (by omega)
      have hout : ¬ w + off < l.length := by omega
      rw [hbefore]
      simp [hg w (by omega), setChecked, hout]

/-- Writing block `m` after blocks `0`, ..., `m - 1`. -/
theorem overwrite_fillBlocks (l : List α) (m w : Nat) (F : Nat → Nat → α) :
    overwrite (fillBlocks l m w F) (m * w) w (F m) = fillBlocks l (m + 1) w F := by
  apply List.ext_getElem
  · simp
  · intro k h₁ h₂
    simp only [overwrite, fillBlocks, List.getElem_mapIdx]
    by_cases hlow : k < m * w
    · rw [if_neg (by omega), if_pos hlow, if_pos (by rw [Nat.succ_mul]; omega)]
    · by_cases hhigh : k < (m + 1) * w
      · have hdiv : k / w = m := Nat.div_eq_of_lt_le (by omega) hhigh
        have hmod : k % w = k - m * w := by
          rw [Nat.mod_eq_sub_mul_div, hdiv, Nat.mul_comm]
        rw [if_pos (by rw [Nat.succ_mul] at hhigh; omega), if_pos hhigh, hdiv, hmod]
      · rw [if_neg (by rw [Nat.succ_mul] at hhigh; omega), if_neg hlow, if_neg hhigh]

section blocks

variable (l : List α) (m w : Nat) (F : Nat → Nat → α) (step : List α → Nat → Option (List α))

/-- The outer loop: every block fits, and each step writes its block. -/
theorem foldlM_blocks
    (hstep : ∀ l' i, i < m → l'.length = l.length → step l' i = some (overwrite l' (i * w) w (F i)))
    (h : m * w ≤ l.length) :
    (List.range m).foldlM step l = some (fillBlocks l m w F) := by
  induction m with
  | zero => simp [fillBlocks_zero]
  | succ m ih =>
    have hbefore := ih (fun l' i hi hl => hstep l' i (by omega) hl)
      (le_trans (Nat.mul_le_mul_right w (Nat.le_succ m)) h)
    rw [List.range_succ, List.foldlM_append, hbefore]
    simp only [Option.bind_eq_bind, Option.bind_some, List.foldlM_cons, List.foldlM_nil,
      hstep _ m (by omega) (length_fillBlocks l m w F), overwrite_fillBlocks]
    rfl

/-- The outer loop fails once a block does not fit, provided each step
succeeds exactly while its block fits. -/
theorem foldlM_blocks_eq_none
    (hok : ∀ l' i, i < m → l'.length = l.length → (i + 1) * w ≤ l.length →
      step l' i = some (overwrite l' (i * w) w (F i)))
    (hfail : ∀ l' i, i < m → l'.length = l.length → l.length < (i + 1) * w → step l' i = none)
    (h : l.length < m * w) :
    (List.range m).foldlM step l = none := by
  induction m with
  | zero => omega
  | succ m ih =>
    rw [List.range_succ, List.foldlM_append]
    by_cases hfit : m * w ≤ l.length
    · have hbefore := foldlM_blocks l m w F step
        (fun l' i hi hl => hok l' i (by omega) hl
          (le_trans (Nat.mul_le_mul_right w (by omega)) hfit)) hfit
      rw [hbefore]
      simp only [Option.bind_eq_bind, Option.bind_some, List.foldlM_cons]
      rw [hfail _ m (by omega) (length_fillBlocks l m w F) h]
      rfl
    · rw [ih (fun l' i hi hl hfit' => hok l' i (by omega) hl hfit')
        (fun l' i hi hl hout => hfail l' i (by omega) hl hout) (by omega)]
      rfl

end blocks

/-- A list of results that all succeed. -/
theorem mapM_eq_some_map {β : Type} (l : List α) (f : α → Option β) (g : α → β)
    (h : ∀ a ∈ l, f a = some (g a)) : l.mapM f = some (l.map g) := by
  induction l with
  | nil => rfl
  | cons a l ih =>
    rw [List.mapM_cons, h a List.mem_cons_self, ih (fun b hb => h b (List.mem_cons_of_mem a hb))]
    rfl

/-- Reading a list back position by position. -/
theorem map_range_getD (l : List α) (d : α) : (List.range l.length).map (l.getD · d) = l := by
  apply List.ext_getElem (by simp)
  intro k h₁ h₂
  rw [List.getElem_map, List.getElem_range, List.getD_eq_getElem l d h₂]

/-- Placing, for every `i < n`, a value at position `rank[i]`. When the
positions are a permutation of `0`, ..., `n - 1` and the value placed at a
position depends only on the position, every position ends up with its
value. Placements can repeat a position without harm, so the invariant after
`k` rounds only asks which positions `rank.take k` has reached. -/
theorem foldlM_scatter (rank : List Nat) (n : Nat) (hrank : rank.Perm (List.range n))
    (val v : Nat → α) (hval : ∀ i < n, val i = v (rank.getD i 0)) (init : List α)
    (hinit : init.length = n) :
    (List.range n).foldlM (fun l i => setChecked l (rank.getD i 0) (val i)) init =
      some ((List.range n).map v) := by
  have hlen : rank.length = n := by simpa using hrank.length_eq
  have hlt : ∀ i < n, rank.getD i 0 < n := by
    intro i hi
    rw [List.getD_eq_getElem rank 0 (by omega)]
    exact List.mem_range.mp (hrank.subset (List.getElem_mem _))
  have hrun : ∀ k ≤ n, (List.range k).foldlM (fun l i => setChecked l (rank.getD i 0) (val i)) init =
      some (init.mapIdx fun p x => if p ∈ rank.take k then v p else x) := by
    intro k
    induction k with
    | zero =>
      intro _
      simp only [List.range_zero, List.foldlM_nil, List.take_zero, List.not_mem_nil, if_false]
      exact congrArg some (List.ext_getElem List.length_mapIdx fun _ _ _ => List.getElem_mapIdx).symm
    | succ k ih =>
      intro hk
      have hrk : rank.getD k 0 = rank[k] := List.getD_eq_getElem rank 0 (by omega)
      have hin : rank[k] < (init.mapIdx fun p x => if p ∈ rank.take k then v p else x).length := by
        rw [List.length_mapIdx, hinit, ← hrk]
        exact hlt k (by omega)
      rw [List.range_succ, List.foldlM_append, ih (by omega)]
      simp only [Option.bind_eq_bind, Option.bind_some, List.foldlM_cons, List.foldlM_nil,
        hval k (by omega), hrk, setChecked, if_pos hin]
      congr 1
      apply List.ext_getElem (by simp)
      intro p h₁ h₂
      have htake : p ∈ rank.take (k + 1) ↔ p ∈ rank.take k ∨ p = rank[k] := by
        rw [List.take_add_one, List.getElem?_eq_getElem (by omega)]
        simp only [Option.toList_some, List.mem_append, List.mem_singleton]
      rw [List.getElem_set, List.getElem_mapIdx, List.getElem_mapIdx]
      by_cases hp : rank[k] = p
      · rw [if_pos hp, if_pos (htake.mpr (Or.inr hp.symm)), hp]
      · rw [if_neg hp]
        by_cases hprev : p ∈ rank.take k
        · rw [if_pos hprev, if_pos (htake.mpr (Or.inl hprev))]
        · have hnew : p ∉ rank.take (k + 1) := by
            rw [htake]
            rintro (h | h)
            · exact hprev h
            · exact hp h.symm
          rw [if_neg hprev, if_neg hnew]
  rw [hrun n le_rfl, List.take_of_length_le (by omega)]
  congr 1
  apply List.ext_getElem (by simp [hinit])
  intro p h₁ h₂
  have hp : p ∈ rank := hrank.mem_iff.mpr (List.mem_range.mpr (by simpa [hinit] using h₁))
  simp [hp]

/-- A list of results has one result per input. -/
theorem length_eq_of_mapM_eq_some {β : Type} {f : α → Option β} :
    ∀ {l : List α} {r : List β}, l.mapM f = some r → r.length = l.length
  | [], r, h => by
    rw [List.mapM_nil] at h
    cases h
    rfl
  | a :: l, r, h => by
    rw [List.mapM_cons] at h
    obtain ⟨b, _, hrest⟩ := Option.bind_eq_some_iff.mp h
    obtain ⟨r', hr', hr⟩ := Option.bind_eq_some_iff.mp hrest
    cases hr
    rw [List.length_cons, List.length_cons, length_eq_of_mapM_eq_some hr']

/-- A loop over `0`, ..., `m - 1` whose step fails at `k < m`, whatever the
state, fails. -/
theorem foldlM_range_eq_none {β : Type} (f : β → Nat → Option β) {k m : Nat} (hk : k < m)
    (hf : ∀ s, f s k = none) (s : β) : (List.range m).foldlM f s = none := by
  induction m with
  | zero => omega
  | succ m ih =>
    rw [List.range_succ, List.foldlM_append]
    rcases Nat.lt_succ_iff_lt_or_eq.mp hk with hlt | rfl
    · rw [ih hlt]
      rfl
    · cases (List.range k).foldlM f s with
      | none => rfl
      | some s' => simp [hf s']

theorem length_eq_of_setChecked {l l' : List α} {k : Nat} {v : α}
    (h : setChecked l k v = some l') : l'.length = l.length := by
  unfold setChecked at h
  split at h
  · cases h
    exact List.length_set
  · cases h

/-- Checked writes keep the length of the buffer. -/
theorem length_eq_of_foldlM_setChecked (idx : Nat → Nat) (val : Nat → α) {m : Nat}
    {l l' : List α} (h : (List.range m).foldlM (fun l i => setChecked l (idx i) (val i)) l = some l') :
    l'.length = l.length := by
  induction m generalizing l' with
  | zero =>
    cases h
    rfl
  | succ m ih =>
    rw [List.range_succ, List.foldlM_append] at h
    obtain ⟨l₁, h₁, h₂⟩ := Option.bind_eq_some_iff.mp h
    simp only [List.foldlM_cons, List.foldlM_nil, bind_pure] at h₂
    rw [length_eq_of_setChecked h₂, ih h₁]

/-- The placements of `foldlM_scatter` with nothing known of the positions:
one position at or past the end of the buffer makes the whole loop fail. -/
theorem foldlM_setChecked_eq_none_of_le (idx : Nat → Nat) (val : Nat → α) {m : Nat} (l : List α)
    (h : ∃ i < m, l.length ≤ idx i) :
    (List.range m).foldlM (fun l i => setChecked l (idx i) (val i)) l = none := by
  induction m with
  | zero =>
    obtain ⟨i, hi, _⟩ := h
    omega
  | succ m ih =>
    rw [List.range_succ, List.foldlM_append]
    cases hbefore : (List.range m).foldlM (fun l i => setChecked l (idx i) (val i)) l with
    | none => rfl
    | some l₁ =>
      have hlast : l.length ≤ idx m := by
        obtain ⟨i, hi, hle⟩ := h
        rcases Nat.lt_succ_iff_lt_or_eq.mp hi with hlt | rfl
        · rw [ih ⟨i, hlt, hle⟩] at hbefore
          cases hbefore
        · exact hle
      have hout : ¬ idx m < l₁.length := by
        rw [length_eq_of_foldlM_setChecked idx val hbefore]
        omega
      simp [setChecked, hout]

/-- OR of `f j <<< j` over `j < w`: the bits `f 0`, ..., `f (w - 1)`, low-order
first, as a number. -/
def orBits (f : Nat → Bool) (w : Nat) : Nat :=
  (List.range w).foldl (fun acc j => acc ||| (f j).toNat <<< j) 0

theorem orBits_succ (f : Nat → Bool) (w : Nat) :
    orBits f (w + 1) = orBits f w ||| (f w).toNat <<< w := by
  simp [orBits, List.range_succ]

theorem testBit_toNat_shiftLeft (b : Bool) (w k : Nat) :
    (b.toNat <<< w).testBit k = (decide (k = w) && b) := by
  cases b with
  | false => simp
  | true =>
    rw [Bool.toNat_true, Nat.one_shiftLeft, Nat.testBit_two_pow]
    simp [eq_comm]

@[simp] theorem testBit_orBits (f : Nat → Bool) (w k : Nat) :
    (orBits f w).testBit k = (decide (k < w) && f k) := by
  induction w with
  | zero => simp [orBits]
  | succ w ih =>
    rw [orBits_succ, Nat.testBit_or, ih, testBit_toNat_shiftLeft]
    by_cases hk : k = w
    · subst hk
      simp
    · have hlt : k < w + 1 ↔ k < w := by omega
      simp [hk, hlt]

theorem orBits_congr {f g : Nat → Bool} {w : Nat} (h : ∀ j < w, f j = g j) :
    orBits f w = orBits g w := by
  apply Nat.eq_of_testBit_eq
  intro k
  rw [testBit_orBits, testBit_orBits]
  by_cases hk : k < w
  · rw [h k hk]
  · simp [hk]

theorem orBits_lt (f : Nat → Bool) (w : Nat) : orBits f w < 2 ^ w := by
  apply Nat.lt_pow_two_of_testBit
  intro k hk
  simp only [testBit_orBits, Bool.and_eq_false_iff, decide_eq_false_iff_not]
  exact Or.inl (by omega)

/-- Reading the low `w` bits of `x` back gives `x` when it has no others. -/
theorem orBits_testBit {x w : Nat} (h : x < 2 ^ w) : orBits x.testBit w = x := by
  apply Nat.eq_of_testBit_eq
  intro k
  rw [testBit_orBits]
  by_cases hk : k < w
  · simp [hk]
  · have hpow : 2 ^ w ≤ 2 ^ k := Nat.pow_le_pow_right (by decide) (by omega)
    rw [Nat.testBit_lt_two_pow (by omega)]
    simp [hk]

/-- The OR loop run in a monad whose steps all succeed. -/
theorem foldlM_or (g : Nat → Option Nat) (f : Nat → Bool) (w : Nat)
    (hg : ∀ j < w, g j = some ((f j).toNat <<< j)) :
    (List.range w).foldlM (fun acc j => g j >>= fun v => pure (acc ||| v)) 0 = some (orBits f w) := by
  induction w with
  | zero => rfl
  | succ w ih =>
    rw [List.range_succ, List.foldlM_append, ih (fun j hj => hg j (by omega))]
    simp only [Option.bind_eq_bind, Option.bind_some, List.foldlM_cons, List.foldlM_nil,
      hg w (by omega), orBits_succ]
    rfl

end BitBuffer
