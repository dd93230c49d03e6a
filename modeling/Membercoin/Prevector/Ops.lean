import Membercoin.Prevector.Layout

/-!
# The operations of prevector on its elements

Each mutator of prevector.h, from a state that holds `xs` and with the
sizes it produces below `2^31`, is defined and leaves a state that holds
what the matching list operation gives: `erase` drops a range,
`insert` splices values in, `resize` truncates or pads with `T{}`,
`assign` replaces, `reserve` and `shrink_to_fit` keep the elements. Growth
goes through one lemma (`Repr.ensure`) for the shared "capacity short, so
`change_capacity`" step. `operator==` and `operator<` answer as list equality
and as the order by length, then lexicographically (`Repr.beq`, `Repr.lt`).
-/

namespace Membercoin

namespace Prevector

open Memory

variable {T : Type}

/-! ## The mutators -/

section mutators

variable {N} {p : Prevector T} {xs : List T}

/-- The join point after an `if` whose value is known. -/
theorem ite_bind_eq {α β : Type} {c : Prop} [Decidable c] {x y : Option α} {a : α}
    (h : (if c then x else y) = some a) (k : α → Option β) : (if c then x.bind k else y.bind k) = k a := by
  by_cases hc : c
  · rw [if_pos hc] at h ⊢
    rw [h, Option.bind_some]
  · rw [if_neg hc] at h ⊢
    rw [h, Option.bind_some]

/-- Room for `n` elements: when the capacity is short, `change_capacity(c)`
for a `c ≥ n`. -/
theorem Repr.ensure (h : Repr N p xs) {cap n c : Nat} (hcap : p.capacity N = some cap) (hnc : n ≤ c)
    (hb : n < 2 ^ 31) :
    ∃ p', (if cap < n then p.changeCapacity N c else pure p) = some p' ∧ Repr N p' xs ∧
      ∃ c', p'.capacity N = some c' ∧ n ≤ c' := by
  obtain ⟨c₀, hc₀, hN, hlen, -, -⟩ := h.capacity
  obtain rfl : c₀ = cap := Option.some.inj (hc₀.symm.trans hcap)
  by_cases hlt : c₀ < n
  · obtain ⟨p', hp', hr, hc'⟩ := h.changeCapacity (show xs.length ≤ c by omega) (fun _ => by omega)
    rw [if_pos hlt]
    exact ⟨p', hp', hr, max N c, hc', le_max_of_le_right hnc⟩
  · rw [if_neg hlt]
    exact ⟨p, rfl, h, c₀, hcap, by omega⟩

/-- The capacity a layout reports is its buffer's length. -/
theorem Repr.room {direct : Bool} {buf : List (Option T)} {c : Nat} (hl : Layout N direct buf xs)
    (hc : (build N direct buf xs.length).capacity N = some c) : c = buf.length :=
  Option.some.inj (hc.symm.trans hl.fits.capacity_build)

/-- A write through `operator[]`. -/
theorem Repr.write (h : Repr N p xs) {pos : Nat} (hpos : pos < xs.length) (v : T) :
    ∃ p', p.write N pos v = some p' ∧ Repr N p' (xs.set pos v) := by
  obtain ⟨d, buf, rfl, hl⟩ := h
  obtain ⟨b, hb, hlen, hh⟩ := hl.holds.set hpos hl.length_le v
  have hset := @List.length_set _ xs pos v
  exact ⟨_, hl.fits.modifyBuffer_build hb hlen,
    (hl.update hlen (hset ▸ hl.length_le) (hset ▸ hl.bound) hh).repr_of hset.symm⟩

/-- `erase(first, last)` drops the elements in `[first, last)`. -/
theorem Repr.erase (h : Repr N p xs) {first last : Nat} (hfl : first ≤ last) (hlast : last ≤ xs.length) :
    ∃ p', p.erase N first last = some p' ∧ Repr N p' (xs.take first ++ xs.drop last) := by
  obtain ⟨d, buf, rfl, hl⟩ := h
  obtain ⟨b, hb, hlen, hh⟩ := hl.holds.erase hfl hlast hl.length_le
  have hys : (xs.take first ++ xs.drop last).length = xs.length - (last - first) := by
    simp only [List.length_append, List.length_take, List.length_drop]
    omega
  have hf : Fits N d b xs.length := hl.fits.update hlen hl.length_le hl.bound
  have := hl.length_le
  have := hl.bound
  refine ⟨_, ?_, (hl.update hlen (by omega) (by omega) hh).repr_of hys.symm⟩
  rw [Prevector.erase, hl.fits.size_build, if_pos ⟨hfl, hlast⟩, hl.fits.modifyBuffer_build hb hlen,
    Option.bind_eq_bind, Option.bind_some, hf.sizeSub_build (by omega)]
  rfl

/-- `insert` of values at `pos`, after room for them. -/
theorem Repr.insertCells (h : Repr N p xs) {pos : Nat} {zs : List T} (hpos : pos ≤ xs.length)
    (hb : xs.length + zs.length < 2 ^ 31) :
    ∃ p', p.insertCells N pos (zs.map some) = some p' ∧ Repr N p' (xs.take pos ++ zs ++ xs.drop pos) := by
  obtain ⟨cap, hcap, -⟩ := h.capacity
  have hnew : sizeAdd (p.size N) (zs.map some).length = xs.length + zs.length := by
    rw [h.size, List.length_map, sizeAdd, Nat.mod_eq_of_lt (by omega)]
  have hgrow : xs.length + zs.length ≤ sizeAdd (xs.length + zs.length) ((xs.length + zs.length) / 2) := by
    rw [sizeAdd, Nat.mod_eq_of_lt (by omega)]
    omega
  obtain ⟨p₁, hp₁, h₁, c₁, hc₁, hroom⟩ := h.ensure hcap hgrow hb
  obtain ⟨d, buf, rfl, hl⟩ := h₁
  obtain rfl := Repr.room hl hc₁
  obtain ⟨b₁, b₂, hb₁, hb₂, hlen, hh⟩ := hl.holds.insert hpos hroom
  have hlen₁ : b₁.length = buf.length := by
    obtain ⟨b, hb, hl₁, -⟩ := memmove_spec (show pos + (xs.length - pos) ≤ buf.length by omega)
      (show pos + zs.length + (xs.length - pos) ≤ buf.length by omega)
    rw [hb₁] at hb
    exact Option.some.inj hb ▸ hl₁
  have hys : (xs.take pos ++ zs ++ xs.drop pos).length = xs.length + zs.length := by
    simp only [List.length_append, List.length_take, List.length_drop]
    omega
  have hf₁ : Fits N d b₁ xs.length := hl.fits.update hlen₁ hl.length_le hl.bound
  have hf₂ : Fits N d b₁ (xs.length + zs.length) := hl.fits.update hlen₁ hroom hb
  refine ⟨_, ?_, (hl.update hlen (by omega) (by omega) hh).repr_of hys.symm⟩
  rw [Prevector.insertCells, if_pos (by rw [h.size]; exact hpos)]
  simp only [Option.bind_eq_bind]
  rw [hcap, Option.bind_some, hnew, ite_bind_eq hp₁, hl.fits.size_build, List.length_map,
    hl.fits.modifyBuffer_build hb₁ hlen₁, Option.bind_some, hf₁.sizeAdd_build hb,
    hf₂.modifyBuffer_build hb₂ (hlen.trans hlen₁.symm)]

/-- `insert(pos, value)`. -/
theorem Repr.insert (h : Repr N p xs) {pos : Nat} (hpos : pos ≤ xs.length) (hb : xs.length + 1 < 2 ^ 31) (v : T) :
    ∃ p', p.insert N pos v = some p' ∧ Repr N p' (xs.take pos ++ [v] ++ xs.drop pos) :=
  h.insertCells hpos (show xs.length + [v].length < 2 ^ 31 from hb)

/-- `insert(pos, count, value)`. -/
theorem Repr.insertFill (h : Repr N p xs) {pos count : Nat} (hpos : pos ≤ xs.length)
    (hb : xs.length + count < 2 ^ 31) (v : T) :
    ∃ p', p.insertFill N pos count v = some p' ∧
      Repr N p' (xs.take pos ++ List.replicate count v ++ xs.drop pos) := by
  rw [Prevector.insertFill, ← List.map_replicate]
  exact h.insertCells hpos (by rw [List.length_replicate]; exact hb)

/-- `insert(pos, first, last)`. -/
theorem Repr.insertRange (h : Repr N p xs) {pos : Nat} {zs : List T} (hpos : pos ≤ xs.length)
    (hb : xs.length + zs.length < 2 ^ 31) :
    ∃ p', p.insertRange N pos zs = some p' ∧ Repr N p' (xs.take pos ++ zs ++ xs.drop pos) :=
  h.insertCells hpos hb

/-- `push_back`. -/
theorem Repr.pushBack (h : Repr N p xs) (hb : xs.length + 1 < 2 ^ 31) (v : T) :
    ∃ p', p.pushBack N v = some p' ∧ Repr N p' (xs ++ [v]) := by
  obtain ⟨cap, hcap, -⟩ := h.capacity
  have hnew : sizeAdd (p.size N) 1 = xs.length + 1 := by
    rw [h.size, sizeAdd, Nat.mod_eq_of_lt (by omega)]
  have hgrow : xs.length + 1 ≤ sizeAdd (xs.length + 1) ((xs.length + 1) / 2) := by
    rw [sizeAdd, Nat.mod_eq_of_lt (by omega)]
    omega
  obtain ⟨p₁, hp₁, h₁, c₁, hc₁, hroom⟩ := h.ensure hcap hgrow hb
  obtain ⟨d, buf, rfl, hl⟩ := h₁
  obtain rfl := Repr.room hl hc₁
  obtain ⟨b, hb', hlen, hh⟩ := hl.holds.append (show xs.length + [v].length ≤ buf.length from hroom)
  simp only [List.map_cons, List.map_nil] at hb'
  have hf : Fits N d b xs.length := hl.fits.update hlen hl.length_le hl.bound
  have hys : (xs ++ [v]).length = xs.length + 1 := List.length_append
  refine ⟨_, ?_, (hl.update hlen (by omega) (by omega) hh).repr_of hys.symm⟩
  rw [Prevector.pushBack]
  simp only [Option.bind_eq_bind]
  rw [hcap, Option.bind_some, hnew, ite_bind_eq hp₁, hl.fits.size_build, hl.fits.modifyBuffer_build hb' hlen,
    Option.bind_some, hf.sizeAdd_build hb]
  rfl

/-- `pop_back` on a non-empty vector. -/
theorem Repr.popBack (h : Repr N p xs) (hne : xs ≠ []) : ∃ p', p.popBack N = some p' ∧ Repr N p' xs.dropLast := by
  have hpos : xs.length ≠ 0 := fun h0 => hne (List.eq_nil_of_length_eq_zero h0)
  obtain ⟨p', hp', hr⟩ := h.erase (Nat.sub_le xs.length 1) (Nat.le_refl xs.length)
  rw [List.drop_length, List.append_nil, ← List.dropLast_eq_take] at hr
  refine ⟨p', ?_, hr⟩
  rw [Prevector.popBack, h.size, if_neg hpos, hp']

/-- The list `resize` gives: the first `n` elements, padded with
`T{}`. -/
def resizeList [Inhabited T] (xs : List T) (n : Nat) : List T := xs.take n ++ List.replicate (n - xs.length) default

section resize

variable [Inhabited T]

/-- `resize(n)`: a truncation by `erase`, or room and `T{}`
written past the end. -/
theorem Repr.resize (h : Repr N p xs) {n : Nat} (hb : n < 2 ^ 31) :
    ∃ p', p.resize N n = some p' ∧ Repr N p' (resizeList xs n) := by
  rcases Nat.lt_trichotomy n xs.length with hlt | heq | hgt
  · obtain ⟨p', hp', hr⟩ := h.erase (Nat.le_of_lt hlt) (Nat.le_refl _)
    rw [List.drop_length, List.append_nil] at hr
    refine ⟨p', ?_, by rw [resizeList, Nat.sub_eq_zero_of_le hlt.le, List.replicate_zero, List.append_nil]; exact hr⟩
    rw [Prevector.resize, h.size, if_neg (Nat.ne_of_gt hlt), if_pos hlt, hp']
  · refine ⟨p, by rw [Prevector.resize, h.size, if_pos heq.symm], ?_⟩
    rw [resizeList, heq, List.take_length, Nat.sub_self, List.replicate_zero, List.append_nil]
    exact h
  · obtain ⟨cap, hcap, -⟩ := h.capacity
    obtain ⟨p₁, hp₁, h₁, c₁, hc₁, hroom⟩ := h.ensure hcap (Nat.le_refl n) hb
    obtain ⟨d, buf, rfl, hl⟩ := h₁
    obtain rfl := Repr.room hl hc₁
    obtain ⟨b, hb', hlen, hh⟩ := hl.holds.append
      (show xs.length + (List.replicate (n - xs.length) (default : T)).length ≤ buf.length by
        rw [List.length_replicate]; omega)
    rw [List.map_replicate] at hb'
    have hf : Fits N d b xs.length := hl.fits.update hlen hl.length_le hl.bound
    have hys : (resizeList xs n).length = xs.length + (n - xs.length) := by
      rw [resizeList, List.length_append, List.length_take, List.length_replicate]
      omega
    have hxs : xs ++ List.replicate (n - xs.length) default = resizeList xs n := by
      rw [resizeList, List.take_of_length_le hgt.le]
    refine ⟨_, ?_, (hl.update hlen (by omega) (by omega) (hxs ▸ hh)).repr_of hys.symm⟩
    rw [Prevector.resize, h.size, if_neg (Nat.ne_of_lt hgt), if_neg (Nat.not_lt_of_gt hgt)]
    simp only [Option.bind_eq_bind]
    rw [hcap, Option.bind_some, ite_bind_eq hp₁, hl.fits.size_build, hl.fits.modifyBuffer_build hb' hlen,
      Option.bind_some, hf.sizeAdd_build (by omega)]
    rfl

/-- `clear`. -/
theorem Repr.clear (h : Repr N p xs) : ∃ p', p.clear N = some p' ∧ Repr N p' [] := by
  obtain ⟨p', hp', hr⟩ := h.resize (n := 0) (by decide)
  exact ⟨p', hp', by simpa [resizeList] using hr⟩

end resize

/-- The tail of `assign` and of the filling constructors: from an empty
state with room, `_size` raised and the values written from the start. -/
theorem Repr.fill (h : Repr N p []) {c : Nat} {zs : List T} (hcap : p.capacity N = some c) (hc : zs.length ≤ c)
    (hb : zs.length < 2 ^ 31) :
    ∃ p', ({ p with rawSize := sizeAdd p.rawSize (zs.map some).length }).modifyBuffer N
      (fun buf => writeCells buf 0 (zs.map some)) = some p' ∧ Repr N p' zs := by
  obtain ⟨d, buf, rfl, hl⟩ := h
  obtain rfl := Repr.room hl hcap
  have hlen₀ : ([] : List T).length + (zs.map some).length = zs.length := by
    rw [List.length_nil, List.length_map, Nat.zero_add]
  obtain ⟨b, hb', hlen, hh⟩ := hl.holds.append
    (show ([] : List T).length + zs.length ≤ buf.length by rw [List.length_nil, Nat.zero_add]; exact hc)
  rw [List.nil_append] at hh
  have hf : Fits N d buf (([] : List T).length + (zs.map some).length) :=
    hl.fits.update rfl (hlen₀ ▸ hc) (hlen₀ ▸ hb)
  refine ⟨build N d b (([] : List T).length + (zs.map some).length), ?_,
    (hl.update hlen (by omega) hb hh).repr_of hlen₀⟩
  rw [hl.fits.sizeAdd_build (hlen₀ ▸ hb), hf.modifyBuffer_build hb' hlen]

section assign

variable [Inhabited T]

/-- `assign` of values: `clear`, room, then the values written. -/
theorem Repr.assignCells (h : Repr N p xs) {zs : List T} (hb : zs.length < 2 ^ 31) :
    ∃ p', p.assignCells N (zs.map some) = some p' ∧ Repr N p' zs := by
  obtain ⟨p₀, hp₀, h₀⟩ := h.clear
  obtain ⟨cap, hcap, -⟩ := h₀.capacity
  obtain ⟨p₁, hp₁, h₁, c₁, hc₁, hroom⟩ := h₀.ensure hcap (Nat.le_refl (zs.map some).length)
    (by rw [List.length_map]; exact hb)
  obtain ⟨p', hp', hr⟩ := h₁.fill hc₁ (by simpa using hroom) hb
  refine ⟨p', ?_, hr⟩
  rw [Prevector.assignCells]
  simp only [Option.bind_eq_bind]
  rw [hp₀, Option.bind_some, hcap, Option.bind_some, ite_bind_eq hp₁]
  exact hp'

/-- `assign(n, val)`. -/
theorem Repr.assign (h : Repr N p xs) {n : Nat} (hb : n < 2 ^ 31) (v : T) :
    ∃ p', p.assign N n v = some p' ∧ Repr N p' (List.replicate n v) := by
  rw [Prevector.assign, ← List.map_replicate]
  exact h.assignCells (by rw [List.length_replicate]; exact hb)

/-- `assign(first, last)`. -/
theorem Repr.assignRange (h : Repr N p xs) {zs : List T} (hb : zs.length < 2 ^ 31) :
    ∃ p', p.assignRange N zs = some p' ∧ Repr N p' zs :=
  h.assignCells hb

end assign

/-- `reserve(n)` keeps the elements and leaves room for `n`. -/
theorem Repr.reserve (h : Repr N p xs) {n : Nat} (hb : n < 2 ^ 31) :
    ∃ p', p.reserve N n = some p' ∧ Repr N p' xs ∧ ∃ c, p'.capacity N = some c ∧ n ≤ c := by
  obtain ⟨cap, hcap, -⟩ := h.capacity
  obtain ⟨p', hp', hr⟩ := h.ensure hcap (Nat.le_refl n) hb
  refine ⟨p', ?_, hr⟩
  rw [Prevector.reserve, hcap, Option.bind_eq_bind, Option.bind_some]
  exact hp'

/-- `shrink_to_fit` keeps the elements, inline when they fit. -/
theorem Repr.shrinkToFit (h : Repr N p xs) :
    ∃ p', p.shrinkToFit N = some p' ∧ Repr N p' xs ∧ p'.capacity N = some (max N xs.length) := by
  rw [Prevector.shrinkToFit, h.size]
  exact h.changeCapacity (Nat.le_refl _) (fun _ => by have := h.bound; omega)

end mutators

/-! ## The constructors -/

section constructors

variable (N) {xs : List T}

/-- The filling constructors hold the values they write. -/
theorem ofCells_repr (hb : xs.length < 2 ^ 31) : ∃ p, ofCells N (xs.map some) = some p ∧ Repr N p xs := by
  obtain ⟨p₁, hp₁, h₁, hc₁⟩ := (empty_repr N (T := T)).changeCapacity (Nat.zero_le (xs.map some).length)
    (fun _ => by rw [List.length_map] at *; omega)
  obtain ⟨p', hp', hr⟩ := h₁.fill hc₁ (by simp) hb
  refine ⟨p', ?_, hr⟩
  rw [ofCells]
  simp only [Option.bind_eq_bind]
  rw [hp₁, Option.bind_some]
  exact hp'

/-- The copy constructor. -/
theorem Repr.copy {q : Prevector T} (h : Repr N q xs) : ∃ p, copy N q = some p ∧ Repr N p xs := by
  obtain ⟨p, hp, hr⟩ := ofCells_repr N h.bound
  exact ⟨p, by rw [Prevector.copy, h.cells, Option.bind_eq_bind, Option.bind_some]; exact hp, hr⟩

end constructors

/-! ## The comparisons -/

section compare

/-- The loop of `operator<` over the cells of two lists of one length. -/
theorem ltLoop_map_some [LinearOrder T] :
    ∀ xs ys : List T, xs.length = ys.length → ltLoop (xs.map some) (ys.map some) = some (decide (xs < ys))
  | [], [], _ => by simp [ltLoop]
  | x :: xs, y :: ys, hlen => by
    have ih := ltLoop_map_some xs ys (Nat.succ.inj hlen)
    rcases lt_trichotomy x y with hxy | rfl | hxy
    · simp [ltLoop, hxy, List.cons_lt_cons_iff]
    · simp [ltLoop, ih]
    · simp [ltLoop, hxy, not_lt_of_gt hxy, ne_of_gt hxy, List.cons_lt_cons_iff]

variable {N} {p q : Prevector T} {xs ys : List T}

/-- `operator<` orders by length, then lexicographically. -/
theorem Repr.lt [LinearOrder T] (hp : Repr N p xs) (hq : Repr N q ys) :
    p.lt N q = some (decide (xs.length < ys.length ∨ xs.length = ys.length ∧ xs < ys)) := by
  rw [Prevector.lt, hp.size, hq.size]
  rcases Nat.lt_trichotomy xs.length ys.length with hlt | heq | hgt
  · rw [if_pos hlt]
    simp [hlt]
  · rw [if_neg (by omega), if_neg (by omega), hp.cells, hq.cells]
    simp only [Option.bind_eq_bind, Option.bind_some]
    rw [ltLoop_map_some _ _ heq]
    simp [heq]
  · rw [if_neg (by omega), if_pos hgt]
    simp only [Option.some.injEq]
    symm
    simp only [decide_eq_false_iff_not, not_or, not_and]
    omega

end compare

end Prevector

end Membercoin
