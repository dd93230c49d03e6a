import Membercoin.Prevector.Model

/-!
# The layout of a prevector

A prevector that holds `xs` is `build N direct buf xs.length`: the elements
in the first cells of `buf`, inline with `_size = xs.length` when `direct`,
on the heap with `_size = xs.length + N + 1` and capacity `buf.length`
otherwise (`Repr`). With every size below `2^31` this is the representation
invariant of prevector.h, and the elements read through `begin()..end()` are
`xs` (`Repr.invariant`, `Repr.elements`).

`change_capacity` to a capacity that fits the elements keeps them and moves
them between the two places (`Repr.changeCapacity`): each of its four
branches is one lemma on `build`.
-/

namespace Membercoin

namespace Prevector

open Memory

variable {T : Type} (N : Nat)

/-! ## The representation -/

/-- The state that holds `len` elements in `buf`: inline when `direct`,
else on the heap with capacity `buf.length`. -/
def build (direct : Bool) (buf : List (Option T)) (len : Nat) : Prevector T :=
  if direct then ⟨.direct buf, len⟩ else ⟨.indirect buf buf.length, len + N + 1⟩

/-- The buffer `buf` holds `xs`: inline in the `N` slots, or on the heap
with more than `N` cells; every size below `2 ^ 31`, where the signed
`Diff` arithmetic of prevector.h stays in range. -/
structure Layout (direct : Bool) (buf : List (Option T)) (xs : List T) : Prop where
  length_direct : direct = true → buf.length = N
  length_indirect : direct = false → N < buf.length ∧ N < 2 ^ 31
  length_le : xs.length ≤ buf.length
  bound : xs.length < 2 ^ 31
  holds : Holds buf xs

/-- `p` holds the elements `xs`. -/
def Repr (p : Prevector T) (xs : List T) : Prop := ∃ direct buf, p = build N direct buf xs.length ∧ Layout N direct buf xs

/-- The representation invariant of prevector.h: the tag names the variant
the union holds, the size is at most the capacity, the inline array has `N`
slots, and a heap buffer has `capacity()` cells, more than `N`. -/
structure Invariant (p : Prevector T) : Prop where
  direct_iff : p.rawSize ≤ N ↔ ∃ slots, p.union = .direct slots
  size_le : ∃ c, p.capacity N = some c ∧ p.size N ≤ c
  slots : ∀ slots, p.union = .direct slots → slots.length = N
  heap : ∀ buf c, p.union = .indirect buf c → N < c ∧ buf.length = c

/-- The layout bounds that the lemmas on `build` need. -/
structure Fits (direct : Bool) (buf : List (Option T)) (len : Nat) : Prop where
  length_direct : direct = true → buf.length = N
  length_indirect : direct = false → N < buf.length ∧ N < 2 ^ 31
  len_le : len ≤ buf.length
  bound : len < 2 ^ 31

section build

variable {N} {direct : Bool} {buf : List (Option T)} {len : Nat}

@[simp] theorem build_true : build N true buf len = ⟨.direct buf, len⟩ := rfl

@[simp] theorem build_false : build N false buf len = ⟨.indirect buf buf.length, len + N + 1⟩ := rfl

theorem rawSize_build_true : (build N true buf len).rawSize = len := rfl

theorem rawSize_build_false : (build N false buf len).rawSize = len + N + 1 := rfl

theorem Layout.fits {xs : List T} (h : Layout N direct buf xs) : Fits N direct buf xs.length :=
  ⟨h.length_direct, h.length_indirect, h.length_le, h.bound⟩

/-- The bounds for another count of elements, in a buffer of the same length. -/
theorem Fits.update {buf' : List (Option T)} {len' : Nat} (h : Fits N direct buf len)
    (hlen : buf'.length = buf.length) (hle : len' ≤ buf.length) (hb : len' < 2 ^ 31) : Fits N direct buf' len' :=
  ⟨fun hd => hlen.trans (h.length_direct hd), fun hd => hlen ▸ h.length_indirect hd, hlen ▸ hle, hb⟩

theorem Fits.tag_le (h : Fits N direct buf len) : (build N direct buf len).rawSize ≤ N ↔ direct = true := by
  cases direct with
  | true => simp only [build, if_true, iff_true]; have := h.length_direct rfl; have := h.len_le; omega
  | false => simp only [build, Bool.false_eq_true, if_false, iff_false]; omega

theorem Fits.size_build (h : Fits N direct buf len) : (build N direct buf len).size N = len := by
  cases direct with
  | true => simp only [size, build, if_true]; have := h.length_direct rfl; have := h.len_le; split_ifs <;> omega
  | false => simp only [size, build, Bool.false_eq_true, if_false]; split_ifs <;> omega

theorem Fits.buffer_build (h : Fits N direct buf len) : (build N direct buf len).buffer N = some buf := by
  cases direct with
  | true => simp only [buffer, build, if_true]; have := h.length_direct rfl; have := h.len_le; rw [if_pos (by omega)]
  | false => simp only [buffer, build, Bool.false_eq_true, if_false]; rw [if_neg (by omega)]

theorem Fits.capacity_build (h : Fits N direct buf len) : (build N direct buf len).capacity N = some buf.length := by
  cases direct with
  | true =>
    have hN := h.length_direct rfl
    have := h.len_le
    simp only [capacity, build, if_true]
    rw [if_pos (by omega), hN]
  | false => simp only [capacity, build, Bool.false_eq_true, if_false]; rw [if_neg (by omega)]

theorem Fits.capacity_ge (h : Fits N direct buf len) : N ≤ buf.length := by
  cases direct with
  | true => exact (h.length_direct rfl).ge
  | false => exact (h.length_indirect rfl).1.le

theorem setBuffer_build {buf' : List (Option T)} (hlen : buf'.length = buf.length) :
    (build N direct buf len).setBuffer buf' = build N direct buf' len := by
  cases direct <;> simp [build, setBuffer, hlen]

theorem Fits.modifyBuffer_build {f : List (Option T) → Option (List (Option T))} {buf' : List (Option T)}
    (h : Fits N direct buf len) (hf : f buf = some buf') (hlen : buf'.length = buf.length) :
    (build N direct buf len).modifyBuffer N f = some (build N direct buf' len) := by
  rw [modifyBuffer, h.buffer_build, Option.bind_eq_bind, Option.bind_some, hf, Option.bind_some, setBuffer_build hlen]
  rfl

/-- Raising `_size` by `k` in `uint32_t` raises the size by `k`. -/
theorem Fits.sizeAdd_build {k : Nat} (h : Fits N direct buf len) (hk : len + k < 2 ^ 31) :
    { build N direct buf len with rawSize := sizeAdd (build N direct buf len).rawSize k } =
      build N direct buf (len + k) := by
  cases direct with
  | true => simp only [build, if_true, sizeAdd]; rw [Nat.mod_eq_of_lt (by omega)]
  | false =>
    have := (h.length_indirect rfl).2
    simp only [build, Bool.false_eq_true, if_false, sizeAdd]
    rw [Nat.mod_eq_of_lt (by omega)]
    congr 1
    omega

/-- Lowering `_size` by `k` in `uint32_t` lowers the size by `k`. -/
theorem Fits.sizeSub_build {k : Nat} (h : Fits N direct buf len) (hk : k ≤ len) :
    { build N direct buf len with rawSize := sizeSub (build N direct buf len).rawSize k } =
      build N direct buf (len - k) := by
  have hb := h.bound
  have hk' : k % 2 ^ 32 = k := Nat.mod_eq_of_lt (by omega)
  cases direct with
  | true =>
    simp only [build, if_true, sizeSub, hk']
    rw [show len + 2 ^ 32 - k = (len - k) + 2 ^ 32 by omega, Nat.add_mod_right, Nat.mod_eq_of_lt (by omega)]
  | false =>
    have := (h.length_indirect rfl).2
    simp only [build, Bool.false_eq_true, if_false, sizeSub, hk']
    rw [show len + N + 1 + 2 ^ 32 - k = (len - k + N + 1) + 2 ^ 32 by omega, Nat.add_mod_right,
      Nat.mod_eq_of_lt (by omega)]

end build

theorem empty_repr : Repr N (empty N : Prevector T) [] :=
  ⟨true, List.replicate N none, rfl,
    ⟨fun _ => List.length_replicate, fun h => absurd h (by decide), Nat.zero_le _, Nat.two_pow_pos 31,
      fun _ hi => absurd hi (Nat.not_lt_zero _)⟩⟩

section repr

variable {N}

theorem Layout.repr {direct : Bool} {buf : List (Option T)} {xs : List T} (h : Layout N direct buf xs) :
    Repr N (build N direct buf xs.length) xs :=
  ⟨direct, buf, rfl, h⟩

theorem Layout.repr_of {direct : Bool} {buf : List (Option T)} {xs : List T} {len : Nat}
    (h : Layout N direct buf xs) (hlen : len = xs.length) : Repr N (build N direct buf len) xs :=
  hlen ▸ h.repr

/-- A layout with the buffer's contents or length changed in place. -/
theorem Layout.update {direct : Bool} {buf buf' : List (Option T)} {xs ys : List T} (h : Layout N direct buf xs)
    (hlen : buf'.length = buf.length) (hys : ys.length ≤ buf.length) (hb : ys.length < 2 ^ 31) (hh : Holds buf' ys) :
    Layout N direct buf' ys :=
  ⟨fun hd => hlen.trans (h.length_direct hd), fun hd => hlen ▸ h.length_indirect hd, hlen ▸ hys, hb, hh⟩

/-- The representation is the invariant of prevector.h. -/
theorem Repr.invariant {p : Prevector T} {xs : List T} (h : Repr N p xs) : Invariant N p := by
  obtain ⟨direct, buf, rfl, hl⟩ := h
  have hf := hl.fits
  refine ⟨?_, ⟨buf.length, hf.capacity_build, by rw [hf.size_build]; exact hl.length_le⟩, ?_, ?_⟩
  · rw [hf.tag_le]
    cases direct <;> simp [build]
  · intro slots hs
    cases direct with
    | true => simp only [build, if_true, DirectOrIndirect.direct.injEq] at hs; exact hs ▸ hl.length_direct rfl
    | false => simp [build] at hs
  · intro buf' c hs
    cases direct with
    | true => simp [build] at hs
    | false =>
      simp only [build, Bool.false_eq_true, if_false, DirectOrIndirect.indirect.injEq] at hs
      obtain ⟨rfl, rfl⟩ := hs
      exact ⟨(hl.length_indirect rfl).1, rfl⟩

theorem Repr.cells {p : Prevector T} {xs : List T} (h : Repr N p xs) : p.cells N = some (xs.map some) := by
  obtain ⟨direct, buf, rfl, hl⟩ := h
  rw [Prevector.cells, hl.fits.buffer_build, Option.bind_eq_bind, Option.bind_some, hl.fits.size_build,
    readCells_eq (by simpa using hl.length_le), List.drop_zero, take_eq_map_some hl.holds]

theorem Repr.capacity {p : Prevector T} {xs : List T} (h : Repr N p xs) :
    ∃ c, p.capacity N = some c ∧ N ≤ c ∧ xs.length ≤ c ∧ xs.length < 2 ^ 31 ∧ (N < c → N < 2 ^ 31) := by
  obtain ⟨direct, buf, rfl, hl⟩ := h
  refine ⟨buf.length, hl.fits.capacity_build, hl.fits.capacity_ge, hl.length_le, hl.bound, fun hc => ?_⟩
  cases direct with
  | true => rw [hl.length_direct rfl] at hc; omega
  | false => exact (hl.length_indirect rfl).2

theorem Repr.bound {p : Prevector T} {xs : List T} (h : Repr N p xs) : xs.length < 2 ^ 31 := by
  obtain ⟨direct, buf, rfl, hl⟩ := h
  exact hl.bound

theorem Repr.size {p : Prevector T} {xs : List T} (h : Repr N p xs) : p.size N = xs.length := by
  obtain ⟨direct, buf, rfl, hl⟩ := h
  exact hl.fits.size_build

end repr

/-! ## change_capacity -/

theorem sizeAdd_tag {len : Nat} (hlen : len < 2 ^ 31) (hN : N < 2 ^ 31) : sizeAdd len (N + 1) = len + N + 1 := by
  rw [sizeAdd, Nat.mod_eq_of_lt (by omega), Nat.add_assoc]

theorem sizeSub_tag {len : Nat} (hlen : len < 2 ^ 31) (hN : N < 2 ^ 31) : sizeSub (len + N + 1) (N + 1) = len := by
  rw [sizeSub, Nat.mod_eq_of_lt (show N + 1 < 2 ^ 32 by omega),
    show len + N + 1 + 2 ^ 32 - (N + 1) = len + 2 ^ 32 by omega, Nat.add_mod_right, Nat.mod_eq_of_lt (by omega)]

section changeCapacity

variable {N} {buf : List (Option T)} {xs : List T} {c : Nat}

/-- Values copied into a fresh buffer of `n` cells. -/
theorem fresh_holds (hn : xs.length ≤ n) :
    ∃ b, writeCells (List.replicate n none) 0 (xs.map some) = some b ∧ b.length = n ∧ Holds b xs := by
  obtain ⟨b, hb, hlen, hh⟩ := (Holds.nil (List.replicate n none)).append
    (show ([] : List T).length + xs.length ≤ (List.replicate n none).length by
      rw [List.length_replicate, List.length_nil]; omega)
  rw [List.length_nil] at hb
  rw [List.nil_append] at hh
  exact ⟨b, hb, hlen.trans List.length_replicate, hh⟩

/-- An inline vector asked for at most `N` stays as it is. -/
theorem Layout.changeCapacity_direct_le (hl : Layout N true buf xs) (hcN : c ≤ N) :
    (build N true buf xs.length).changeCapacity N c = some (build N true buf xs.length) := by
  have := hl.length_direct rfl
  have := hl.length_le
  rw [Prevector.changeCapacity, if_pos hcN, if_pos (by rw [rawSize_build_true]; omega)]

/-- A heap vector asked for at most `N` moves its elements inline. -/
theorem Layout.changeCapacity_indirect_le (hl : Layout N false buf xs) (hc : xs.length ≤ c) (hcN : c ≤ N) :
    ∃ slots, (build N false buf xs.length).changeCapacity N c = some (build N true slots xs.length) ∧
      Layout N true slots xs := by
  obtain ⟨slots, hslots, hlen, hh⟩ := fresh_holds (show xs.length ≤ N by omega)
  have hN := (hl.length_indirect rfl).2
  refine ⟨slots, ?_, ⟨fun _ => hlen, fun h => absurd h (by decide), by omega, hl.bound, hh⟩⟩
  have hsize : (build N false buf xs.length).size N = xs.length := hl.fits.size_build
  rw [Prevector.changeCapacity, if_pos hcN, if_neg (by rw [rawSize_build_false]; omega), hsize]
  simp only [build_false, hl.holds.readCells_eq hl.length_le, hslots, Option.bind_eq_bind, Option.bind_some, build_true,
    sizeSub_tag N hl.bound hN]
  rfl

/-- An inline vector asked for more than `N` moves its elements to a heap
buffer of that many cells. -/
theorem Layout.changeCapacity_direct_gt (hl : Layout N true buf xs) (hc : xs.length ≤ c) (hcN : N < c)
    (hN : N < 2 ^ 31) :
    ∃ b, (build N true buf xs.length).changeCapacity N c = some (build N false b xs.length) ∧
      Layout N false b xs ∧ b.length = c := by
  obtain ⟨b, hb, hlen, hh⟩ := fresh_holds hc
  refine ⟨b, ?_, ⟨fun h => absurd h (by decide), fun _ => ⟨by omega, hN⟩, by omega, hl.bound, hh⟩, hlen⟩
  have hsize : (build N true buf xs.length).size N = xs.length := hl.fits.size_build
  have := hl.length_direct rfl
  have := hl.length_le
  rw [Prevector.changeCapacity, if_neg (by omega), if_pos (by rw [rawSize_build_true]; omega), hsize]
  simp only [build_true, hl.holds.readCells_eq hl.length_le, hb, Option.bind_eq_bind, Option.bind_some, build_false,
    sizeAdd_tag N hl.bound hN, hlen]
  rfl

/-- A heap vector asked for more than `N` reallocates its buffer. -/
theorem changeCapacity_indirect_gt {len : Nat} (hcN : N < c) :
    (build N false buf len).changeCapacity N c = some (build N false (resizeBuffer buf c none) len) := by
  rw [Prevector.changeCapacity, if_neg (by omega), if_neg (by rw [rawSize_build_false]; omega)]
  simp only [build_false, length_resizeBuffer]
  rfl

/-- `change_capacity(c)` for a capacity that fits the elements keeps them,
inline when `c ≤ N` and in a heap buffer of `c` cells otherwise. -/
theorem Repr.changeCapacity {p : Prevector T} (h : Repr N p xs) (hc : xs.length ≤ c)
    (hN : N < c → N < 2 ^ 31) :
    ∃ p', p.changeCapacity N c = some p' ∧ Repr N p' xs ∧ p'.capacity N = some (max N c) := by
  obtain ⟨direct, buf, rfl, hl⟩ := h
  by_cases hcN : c ≤ N
  · cases direct with
    | true =>
      refine ⟨_, hl.changeCapacity_direct_le hcN, hl.repr, ?_⟩
      rw [hl.fits.capacity_build, hl.length_direct rfl, max_eq_left hcN]
    | false =>
      obtain ⟨slots, hs, hl'⟩ := hl.changeCapacity_indirect_le hc hcN
      refine ⟨_, hs, hl'.repr, ?_⟩
      rw [hl'.fits.capacity_build, hl'.length_direct rfl, max_eq_left hcN]
  · have hNc : N < c := Nat.lt_of_not_le hcN
    cases direct with
    | true =>
      obtain ⟨b, hs, hl', hlen⟩ := hl.changeCapacity_direct_gt hc hNc (hN hNc)
      refine ⟨_, hs, hl'.repr, ?_⟩
      rw [hl'.fits.capacity_build, hlen, max_eq_right hNc.le]
    | false =>
      have hlen := length_resizeBuffer buf c none
      have hl' : Layout N false (resizeBuffer buf c none) xs :=
        ⟨fun h => absurd h (by decide), fun _ => ⟨by omega, hN hNc⟩, by omega, hl.bound,
          hl.holds.resizeBuffer hc hl.length_le⟩
      refine ⟨_, changeCapacity_indirect_gt hNc, hl'.repr, ?_⟩
      rw [hl'.fits.capacity_build, hlen, max_eq_right hNc.le]

end changeCapacity

end Prevector

end Membercoin
