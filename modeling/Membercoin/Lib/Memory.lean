import Mathlib

/-!
# Buffers of cells

A block of memory is a list of cells; `memcpy`, `memmove` and `std::fill`
read and write ranges of it (`readCells`, `writeCells`), and `realloc`
resizes it (`resizeBuffer`). A range past the end is undefined, `none`.

Each operation is described cell by cell (`getElem?_writeCells`,
`getElem?_readCells`, `getElem?_resizeBuffer`). `Holds buf xs` says the
first cells of `buf` hold the values `xs`, as `some`; a cell that is `none`
was never written. `mapM_id_of_holds` reads such a prefix back.
-/

namespace Memory

variable {α β : Type}

/-- Reading `count` cells from `src`. -/
def readCells (buf : List α) (src count : Nat) : Option (List α) :=
  if src + count ≤ buf.length then some ((buf.drop src).take count) else none

/-- Writing `cells` from `dst`. -/
def writeCells (buf : List α) (dst : Nat) (cells : List α) : Option (List α) :=
  if dst + cells.length ≤ buf.length then some (buf.take dst ++ cells ++ buf.drop (dst + cells.length)) else none

/-- `memmove(buf + dst, buf + src, count)`: the cells are read before any is
written, so the ranges may overlap. -/
def memmove (buf : List α) (dst src count : Nat) : Option (List α) := do
  let cells ← readCells buf src count
  writeCells buf dst cells

/-- `realloc` to `n` cells: the first ones kept, the new ones `fresh`. -/
def resizeBuffer (buf : List α) (n : Nat) (fresh : α) : List α :=
  buf.take n ++ List.replicate (n - buf.length) fresh

/-- The first cells of `buf` hold `xs`. -/
def Holds (buf : List (Option β)) (xs : List β) : Prop := ∀ i < xs.length, buf[i]? = xs[i]?.map some

theorem readCells_eq {buf : List α} {src count : Nat} (h : src + count ≤ buf.length) :
    readCells buf src count = some ((buf.drop src).take count) := if_pos h

theorem writeCells_eq {buf : List α} {dst : Nat} {cells : List α} (h : dst + cells.length ≤ buf.length) :
    writeCells buf dst cells = some (buf.take dst ++ cells ++ buf.drop (dst + cells.length)) := if_pos h

theorem length_readCells {buf : List α} {src count : Nat} (h : src + count ≤ buf.length) :
    ((buf.drop src).take count).length = count := by
  simp only [List.length_take, List.length_drop]
  omega

theorem length_writeCells {buf : List α} {dst : Nat} {cells : List α} (h : dst + cells.length ≤ buf.length) :
    (buf.take dst ++ cells ++ buf.drop (dst + cells.length)).length = buf.length := by
  simp only [List.length_append, List.length_take, List.length_drop]
  omega

theorem getElem?_readCells (buf : List α) (src count i : Nat) :
    ((buf.drop src).take count)[i]? = if i < count then buf[src + i]? else none := by
  rw [List.getElem?_take, List.getElem?_drop]

/-- A written buffer, cell by cell: the cells written over `[dst, dst + n)`,
the old cells elsewhere. -/
theorem getElem?_writeCells {buf : List α} {dst : Nat} {cells : List α} (h : dst + cells.length ≤ buf.length)
    (i : Nat) : (buf.take dst ++ cells ++ buf.drop (dst + cells.length))[i]? =
      if i < dst then buf[i]? else if i < dst + cells.length then cells[i - dst]? else buf[i]? := by
  have htake : (buf.take dst).length = dst := by simp only [List.length_take]; omega
  rw [List.getElem?_append, List.length_append, htake, List.getElem?_append, htake, List.getElem?_take,
    List.getElem?_drop]
  by_cases h1 : i < dst
  · simp [h1, show i < dst + cells.length by omega]
  · by_cases h2 : i < dst + cells.length
    · simp [h1, h2]
    · simp only [h1, h2, if_false]
      congr 1
      omega

theorem getElem?_resizeBuffer (buf : List α) (n : Nat) (fresh : α) (i : Nat) :
    (resizeBuffer buf n fresh)[i]? = if i < n ∧ i < buf.length then buf[i]? else if i < n then some fresh else none := by
  unfold resizeBuffer
  rw [List.getElem?_append, List.getElem?_take, List.getElem?_replicate, List.length_take]
  by_cases h1 : i < n <;> by_cases h2 : i < buf.length
  · simp [h1, h2, show i < min n buf.length by omega]
  · simp only [h1, h2, and_false, if_false, if_true, show ¬i < min n buf.length by omega]
    rw [if_pos (by omega)]
  · simp [h1, show ¬i < min n buf.length by omega]
    omega
  · simp [h1, show ¬i < min n buf.length by omega]
    omega

theorem length_resizeBuffer (buf : List α) (n : Nat) (fresh : α) : (resizeBuffer buf n fresh).length = n := by
  simp only [resizeBuffer, List.length_append, List.length_take, List.length_replicate]
  omega

theorem mapM_id_map_some (xs : List β) : (xs.map some).mapM id = some xs := by
  induction xs with
  | nil => rfl
  | cons x xs ih =>
    rw [List.map_cons, List.mapM_cons, ih]
    rfl

theorem take_eq_map_some {buf : List (Option β)} {xs : List β} (h : Holds buf xs) :
    buf.take xs.length = xs.map some := by
  apply List.ext_getElem?
  intro i
  rw [List.getElem?_take, List.getElem?_map]
  by_cases hi : i < xs.length
  · rw [if_pos hi, h i hi]
  · rw [if_neg hi, List.getElem?_eq_none (by omega)]
    rfl

/-- A prefix that holds values reads back as them. -/
theorem mapM_id_of_holds {buf : List (Option β)} {xs : List β} (h : Holds buf xs) :
    (buf.take xs.length).mapM id = some xs := by
  rw [take_eq_map_some h, mapM_id_map_some]

/-- `writeCells` when the range fits, cell by cell. -/
theorem writeCells_spec {buf : List α} {dst : Nat} {cells : List α} (h : dst + cells.length ≤ buf.length) :
    ∃ b, writeCells buf dst cells = some b ∧ b.length = buf.length ∧
      ∀ i, b[i]? = if i < dst then buf[i]? else if i < dst + cells.length then cells[i - dst]? else buf[i]? :=
  ⟨_, writeCells_eq h, length_writeCells h, getElem?_writeCells h⟩

/-- `memmove` when both ranges fit, cell by cell. -/
theorem memmove_spec {buf : List α} {dst src count : Nat} (hs : src + count ≤ buf.length)
    (hd : dst + count ≤ buf.length) :
    ∃ b, memmove buf dst src count = some b ∧ b.length = buf.length ∧
      ∀ i, b[i]? = if i < dst then buf[i]? else if i < dst + count then buf[src + (i - dst)]? else buf[i]? := by
  obtain ⟨b, hb, hlen, hget⟩ := writeCells_spec (show dst + ((buf.drop src).take count).length ≤ buf.length by
    rw [length_readCells hs]; exact hd)
  refine ⟨b, by rw [memmove, readCells_eq hs]; exact hb, hlen, fun i => ?_⟩
  rw [hget, length_readCells hs, getElem?_readCells]
  by_cases h1 : i < dst
  · simp [h1]
  · by_cases h2 : i < dst + count
    · simp [h1, h2, show i - dst < count by omega]
    · simp [h1, h2]

section holds

variable {buf : List (Option β)} {xs : List β}

theorem Holds.nil (buf : List (Option β)) : Holds buf [] := fun _ hi => absurd hi (Nat.not_lt_zero _)

/-- The cells of the values a buffer holds read back as them. -/
theorem Holds.readCells_eq (h : Holds buf xs) (hlen : xs.length ≤ buf.length) :
    readCells buf 0 xs.length = some (xs.map some) := by
  rw [Memory.readCells_eq (by omega), List.drop_zero, take_eq_map_some h]

/-- Values written just past those a buffer holds extend them. -/
theorem Holds.append {ys : List β} (h : Holds buf xs) (hroom : xs.length + ys.length ≤ buf.length) :
    ∃ b, writeCells buf xs.length (ys.map some) = some b ∧ b.length = buf.length ∧ Holds b (xs ++ ys) := by
  obtain ⟨b, hb, hlen, hget⟩ := writeCells_spec (show xs.length + (ys.map some).length ≤ buf.length by
    rw [List.length_map]; exact hroom)
  refine ⟨b, hb, hlen, fun i hi => ?_⟩
  rw [List.length_append] at hi
  rw [hget, List.length_map, List.getElem?_append]
  by_cases h1 : i < xs.length
  · rw [if_pos h1, if_pos h1, h i h1]
  · rw [if_neg h1, if_pos hi, if_neg h1, List.getElem?_map]

/-- A value written over one the buffer holds replaces it. -/
theorem Holds.set {pos : Nat} (h : Holds buf xs) (hpos : pos < xs.length) (hlen : xs.length ≤ buf.length) (v : β) :
    ∃ b, writeCells buf pos [some v] = some b ∧ b.length = buf.length ∧ Holds b (xs.set pos v) := by
  obtain ⟨b, hb, hblen, hget⟩ := writeCells_spec (show pos + [some v].length ≤ buf.length by
    rw [List.length_singleton]; omega)
  refine ⟨b, hb, hblen, fun i hi => ?_⟩
  rw [List.length_set] at hi
  rw [hget, List.getElem?_set, List.length_singleton]
  by_cases h1 : i < pos
  · rw [if_pos h1, if_neg (by omega), h i hi]
  · by_cases h2 : i < pos + 1
    · obtain rfl : pos = i := by omega
      simp [hi]
    · rw [if_neg h1, if_neg h2, if_neg (by omega), h i hi]

/-- Erasing `[first, last)`: the values from `last` moved down to `first`. -/
theorem Holds.erase {first last : Nat} (h : Holds buf xs) (hfl : first ≤ last) (hl : last ≤ xs.length)
    (hlen : xs.length ≤ buf.length) :
    ∃ b, memmove buf first last (xs.length - last) = some b ∧ b.length = buf.length ∧
      Holds b (xs.take first ++ xs.drop last) := by
  obtain ⟨b, hb, hblen, hget⟩ := memmove_spec (show last + (xs.length - last) ≤ buf.length by omega)
    (show first + (xs.length - last) ≤ buf.length by omega)
  refine ⟨b, hb, hblen, fun i hi => ?_⟩
  simp only [List.length_append, List.length_take, List.length_drop] at hi
  have htake : (xs.take first).length = first := by rw [List.length_take]; omega
  rw [hget, List.getElem?_append, htake]
  by_cases h1 : i < first
  · rw [if_pos h1, if_pos h1, List.getElem?_take, if_pos h1, h i (by omega)]
  · rw [if_neg h1, if_neg h1, if_pos (by omega), h _ (by omega), List.getElem?_drop]

/-- Inserting values at `pos`: the values from `pos` moved up past them,
then the new ones written. -/
theorem Holds.insert {zs : List β} {pos : Nat} (h : Holds buf xs) (hpos : pos ≤ xs.length)
    (hroom : xs.length + zs.length ≤ buf.length) :
    ∃ b₁ b₂, memmove buf (pos + zs.length) pos (xs.length - pos) = some b₁ ∧
      writeCells b₁ pos (zs.map some) = some b₂ ∧ b₂.length = buf.length ∧
      Holds b₂ (xs.take pos ++ zs ++ xs.drop pos) := by
  obtain ⟨b₁, hb₁, hlen₁, hget₁⟩ := memmove_spec (show pos + (xs.length - pos) ≤ buf.length by omega)
    (show pos + zs.length + (xs.length - pos) ≤ buf.length by omega)
  obtain ⟨b₂, hb₂, hlen₂, hget₂⟩ := writeCells_spec (show pos + (zs.map some).length ≤ b₁.length by
    rw [List.length_map]; omega)
  refine ⟨b₁, b₂, hb₁, hb₂, hlen₂.trans hlen₁, fun i hi => ?_⟩
  simp only [List.length_append, List.length_take, List.length_drop] at hi
  have htake : (xs.take pos).length = pos := by rw [List.length_take]; omega
  rw [hget₂, List.length_map, List.getElem?_append, List.length_append, htake, List.getElem?_append, htake]
  by_cases h1 : i < pos
  · rw [if_pos h1, if_pos (by omega), if_pos h1, hget₁, if_pos (by omega), List.getElem?_take, if_pos h1,
      h i (by omega)]
  · by_cases h2 : i < pos + zs.length
    · rw [if_neg h1, if_pos h2, if_pos h2, if_neg h1, List.getElem?_map]
    · rw [if_neg h1, if_neg h2, if_neg h2, hget₁, if_neg h2, if_pos (by omega), h _ (by omega),
        List.getElem?_drop]

/-- `realloc` to at least as many cells keeps the values. -/
theorem Holds.resizeBuffer {n : Nat} (h : Holds buf xs) (hn : xs.length ≤ n) (hlen : xs.length ≤ buf.length) :
    Holds (resizeBuffer buf n none) xs := fun i hi => by
  rw [getElem?_resizeBuffer, if_pos ⟨by omega, by omega⟩, h i hi]

end holds

end Memory
