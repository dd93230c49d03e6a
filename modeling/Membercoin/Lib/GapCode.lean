import Mathlib

/-!
# Gap codes: a list sent as its marked elements and the rest

A sender that splits a list into the elements it marks and those it does not
can send each marked element with its gap, the number of unmarked elements
since the previous marked one, and the unmarked elements in order
(`encodeFrom`). The receiver rebuilds the list by taking, for each marked
element, its gap of unmarked ones and then the marked one, and appending what
is left (`decode`). Rebuilding what was sent gives the list back
(`decode_encode`).

For any gaps whose sum does not pass the number of unmarked elements
(`Fits`), the `k`-th marked element lands at `pos ps k`, the sum of the first
`k + 1` gaps plus one each, less one (`getElem?_decode_pos`), and the other
positions hold the unmarked elements in order (`dropPositions_decode`);
`decode` never loses an element (`length_decode`).
-/

namespace GapCode

variable {α : Type}

/-- The split from a point where `gap` unmarked elements are pending: each
marked element with its gap, and the unmarked elements. -/
def encodeFrom (mark : α → Bool) : Nat → List α → List (Nat × α) × List α
  | _, [] => ([], [])
  | gap, x :: xs =>
    if mark x then
      let r := encodeFrom mark 0 xs
      ((gap, x) :: r.1, r.2)
    else
      let r := encodeFrom mark (gap + 1) xs
      (r.1, x :: r.2)

/-- The rebuilt list: for each marked element, its gap of unmarked ones and
then itself; then the unmarked ones left. -/
def decode : List (Nat × α) → List α → List α
  | [], us => us
  | (gap, y) :: ps, us => us.take gap ++ y :: decode ps (us.drop gap)

/-- The sum of the gaps. -/
def gapSum (ps : List (Nat × α)) : Nat := (ps.map Prod.fst).sum

/-- The gaps never run past the unmarked elements. -/
def Fits (ps : List (Nat × α)) (us : List α) : Prop := gapSum ps ≤ us.length

/-- The position of the `k`-th marked element: the first `k + 1` gaps, one
more for each marked element, less one. -/
def pos (ps : List (Nat × α)) (k : Nat) : Nat := ((ps.take (k + 1)).map (·.1 + 1)).sum - 1

/-- The elements of `l` at the positions not in `P`, in order. -/
def dropPositions (l : List α) (P : List Nat) : List α :=
  ((l.zipIdx).filter fun x => decide (x.2 ∉ P)).map Prod.fst

@[simp] theorem gapSum_nil : gapSum ([] : List (Nat × α)) = 0 := rfl

@[simp] theorem gapSum_cons (g : Nat) (y : α) (ps : List (Nat × α)) : gapSum ((g, y) :: ps) = g + gapSum ps := by
  simp [gapSum]

/-- `decode` places every element it is given. -/
theorem length_decode : ∀ (ps : List (Nat × α)) (us : List α), (decode ps us).length = ps.length + us.length
  | [], _ => by simp [decode]
  | (g, y) :: ps, us => by
    have ih := length_decode ps (us.drop g)
    simp only [decode, List.length_append, List.length_cons, ih, List.length_take, List.length_drop]
    omega

/-- Decoding commutes with a map of the elements. -/
theorem decode_map {β : Type} (f : α → β) : ∀ (ps : List (Nat × α)) (us : List α),
    decode (ps.map fun e => (e.1, f e.2)) (us.map f) = (decode ps us).map f
  | [], _ => rfl
  | (g, y) :: ps, us => by
    simp only [List.map_cons, decode, List.map_append, List.map_take]
    rw [← List.map_drop, decode_map f ps]

/-! ## Encoding and decoding -/

section encode

variable (mark : α → Bool)

/-- The marked elements are sent in order. -/
theorem map_snd_encodeFrom : ∀ (gap : Nat) (xs : List α), (encodeFrom mark gap xs).1.map Prod.snd = xs.filter mark
  | _, [] => rfl
  | gap, x :: xs => by
    by_cases hx : mark x
    · simp [encodeFrom, hx, map_snd_encodeFrom 0 xs]
    · simp [encodeFrom, hx, map_snd_encodeFrom (gap + 1) xs]

/-- The unmarked elements are sent in order. -/
theorem encodeFrom_snd : ∀ (gap : Nat) (xs : List α), (encodeFrom mark gap xs).2 = xs.filter (fun x => !mark x)
  | _, [] => rfl
  | gap, x :: xs => by
    by_cases hx : mark x
    · simp [encodeFrom, hx, encodeFrom_snd 0 xs]
    · simp [encodeFrom, hx, encodeFrom_snd (gap + 1) xs]

/-- The gaps add up to at most the pending ones and the unmarked elements
sent. -/
theorem gapSum_encodeFrom : ∀ (gap : Nat) (xs : List α),
    gapSum (encodeFrom mark gap xs).1 ≤ gap + (encodeFrom mark gap xs).2.length
  | _, [] => Nat.zero_le _
  | gap, x :: xs => by
    by_cases hx : mark x
    · have ih := gapSum_encodeFrom 0 xs
      simp only [encodeFrom, hx, if_true, gapSum_cons]
      omega
    · have ih := gapSum_encodeFrom (gap + 1) xs
      simp only [encodeFrom, hx, Bool.false_eq_true, if_false, List.length_cons]
      omega

/-- Decoding after `w` pending unmarked elements: the gap of the first marked
element counts them. -/
theorem decode_encodeFrom : ∀ (xs w : List α),
    decode (encodeFrom mark w.length xs).1 (w ++ (encodeFrom mark w.length xs).2) = w ++ xs
  | [], w => by simp [encodeFrom, decode]
  | x :: xs, w => by
    by_cases hx : mark x
    · have ih := decode_encodeFrom xs []
      simp only [List.length_nil, List.nil_append] at ih
      simp only [encodeFrom, hx, if_true, decode, List.take_left, List.drop_left, ih]
    · have ih := decode_encodeFrom xs (w ++ [x])
      rw [List.length_append, List.length_singleton, List.append_assoc, List.singleton_append] at ih
      simpa only [encodeFrom, hx, Bool.false_eq_true, if_false, List.append_assoc, List.singleton_append] using ih

/-- Rebuilding what was sent gives the list back. -/
theorem decode_encode (xs : List α) : decode (encodeFrom mark 0 xs).1 (encodeFrom mark 0 xs).2 = xs :=
  decode_encodeFrom mark xs []

/-- Everything is sent, marked or unmarked. -/
theorem length_encode (xs : List α) :
    (encodeFrom mark 0 xs).1.length + (encodeFrom mark 0 xs).2.length = xs.length := by
  rw [← length_decode, decode_encode]

theorem encode_fits (xs : List α) : Fits (encodeFrom mark 0 xs).1 (encodeFrom mark 0 xs).2 := by
  have := gapSum_encodeFrom mark 0 xs
  rw [Nat.zero_add] at this
  exact this

end encode

/-! ## Where the elements land -/

theorem pos_cons_zero (g : Nat) (y : α) (ps : List (Nat × α)) : pos ((g, y) :: ps) 0 = g := by
  simp [pos]

theorem pos_cons_succ (g : Nat) (y : α) {ps : List (Nat × α)} {k : Nat} (hk : k < ps.length) :
    pos ((g, y) :: ps) (k + 1) = g + 1 + pos ps k := by
  obtain ⟨q, qs, hq⟩ : ∃ q qs, ps.take (k + 1) = q :: qs := by
    cases h : ps.take (k + 1) with
    | nil =>
      rcases List.take_eq_nil_iff.mp h with h | rfl
      · omega
      · exact absurd hk (Nat.not_lt_zero k)
    | cons q qs => exact ⟨q, qs, rfl⟩
  simp only [pos, List.take_succ_cons, List.map_cons, List.sum_cons, hq]
  omega

/-- The `k`-th marked element lands at `pos ps k`. -/
theorem getElem?_decode_pos : ∀ (ps : List (Nat × α)) (us : List α), Fits ps us →
    ∀ k (hk : k < ps.length), (decode ps us)[pos ps k]? = some ps[k].2
  | [], _, _, k, hk => absurd hk (Nat.not_lt_zero k)
  | (g, y) :: ps, us, hfit, k, hk => by
    have hfit : g + gapSum ps ≤ us.length := by simpa [Fits] using hfit
    have htake : (us.take g).length = g := by rw [List.length_take]; omega
    cases k with
    | zero =>
      rw [pos_cons_zero, decode, List.getElem?_append_right (by omega), htake, Nat.sub_self]
      rfl
    | succ k =>
      have hk' : k < ps.length := Nat.lt_of_succ_lt_succ hk
      have hfit' : Fits ps (us.drop g) := by simp only [Fits, List.length_drop]; omega
      rw [pos_cons_succ g y hk', decode, List.getElem?_append_right (by omega), htake,
        show g + 1 + pos ps k - g = pos ps k + 1 by omega, List.getElem?_cons_succ,
        getElem?_decode_pos ps (us.drop g) hfit' k hk']
      rfl

/-- The positions of the marked elements when the decoded list starts at
index `n`. -/
def posFrom : Nat → List (Nat × α) → List Nat
  | _, [] => []
  | n, (g, _) :: ps => (n + g) :: posFrom (n + g + 1) ps

theorem le_of_mem_posFrom : ∀ {n m : Nat} {ps : List (Nat × α)}, m ∈ posFrom n ps → n ≤ m
  | _, _, [], h => absurd h List.not_mem_nil
  | n, m, (g, _) :: ps, h => by
    rcases List.mem_cons.mp h with rfl | h
    · exact Nat.le_add_right n g
    · have := le_of_mem_posFrom h
      omega

theorem posFrom_eq_map_pos : ∀ (n : Nat) (ps : List (Nat × α)),
    posFrom n ps = (List.range ps.length).map fun k => n + pos ps k
  | _, [] => rfl
  | n, (g, y) :: ps => by
    rw [posFrom, posFrom_eq_map_pos (n + g + 1) ps, List.length_cons, List.range_succ_eq_map, List.map_cons,
      List.map_map, pos_cons_zero]
    congr 1
    apply List.map_congr_left
    intro k hk
    rw [Function.comp_apply, pos_cons_succ g y (List.mem_range.mp hk)]
    omega

/-- Dropping the positions of the marked elements from a decoded list that
starts at index `n` leaves the unmarked elements. -/
theorem dropPositionsFrom_decode : ∀ (ps : List (Nat × α)) (us : List α) (n : Nat), Fits ps us →
    (((decode ps us).zipIdx n).filter fun x => decide (x.2 ∉ posFrom n ps)).map Prod.fst = us
  | [], us, n, _ => by simp [decode, posFrom, List.zipIdx_map_fst]
  | (g, y) :: ps, us, n, hfit => by
    have hfit : g + gapSum ps ≤ us.length := by simpa [Fits] using hfit
    have htake : (us.take g).length = g := by rw [List.length_take]; omega
    have hfit' : Fits ps (us.drop g) := by simp only [Fits, List.length_drop]; omega
    rw [decode, List.zipIdx_append, List.zipIdx_cons, htake, List.filter_append, List.filter_cons]
    have hpre : ((us.take g).zipIdx n).filter (fun x => decide (x.2 ∉ posFrom n ((g, y) :: ps))) =
        (us.take g).zipIdx n := by
      apply List.filter_eq_self.mpr
      intro x hx
      have hlt := List.snd_lt_add_of_mem_zipIdx hx
      rw [htake] at hlt
      simp only [posFrom, List.mem_cons, not_or, decide_eq_true_eq]
      exact ⟨by omega, fun h => by have := le_of_mem_posFrom h; omega⟩
    have hpost : ((decode ps (us.drop g)).zipIdx (n + g + 1)).filter
          (fun x => decide (x.2 ∉ posFrom n ((g, y) :: ps))) =
        ((decode ps (us.drop g)).zipIdx (n + g + 1)).filter (fun x => decide (x.2 ∉ posFrom (n + g + 1) ps)) := by
      apply List.filter_congr
      intro x hx
      have hge := List.le_snd_of_mem_zipIdx hx
      simp only [posFrom, List.mem_cons, not_or]
      have : x.2 ≠ n + g := by omega
      simp [this]
    have hy : decide ((y, n + g).2 ∉ posFrom n ((g, y) :: ps)) = false := by simp [posFrom]
    rw [hpre, hy, if_neg Bool.false_ne_true, hpost, List.map_append, List.zipIdx_map_fst, dropPositionsFrom_decode ps (us.drop g) _ hfit',
      List.take_append_drop]

/-- The other positions hold the unmarked elements in order. -/
theorem dropPositions_decode {ps : List (Nat × α)} {us : List α} (hfit : Fits ps us) :
    dropPositions (decode ps us) ((List.range ps.length).map (pos ps)) = us := by
  have h := dropPositionsFrom_decode ps us 0 hfit
  simp only [posFrom_eq_map_pos, Nat.zero_add] at h
  exact h

end GapCode
