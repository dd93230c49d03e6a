import Membercoin.Lib.Memory

/-!
# prevector (prevector.h)

`prevector<N, T>` keeps up to `N` elements inline, in the bytes of a union
that otherwise holds the pointer to a heap buffer and its capacity. `_size`
is the tag: the number of elements when they are inline, the number plus
`N + 1` when they are on the heap. `change_capacity` moves the elements
between the two with `memcpy` or `realloc` and rewrites the tag.

The model keeps the union as the variant it holds (`DirectOrIndirect`), and a
buffer as a list of cells, `none` until an element is written into it.
Reading the variant the tag does not name is undefined, `none`, as are a
range past the end of a buffer and an iterator outside the elements. Size
arithmetic is in `uint32_t`. The element type is trivially copyable, so
elements move as cells and `erase` takes the branch for trivially
destructible types; `T{}` is `default`.

The overloads of `assign`, `insert` and the filling constructors differ only
in the cells they write (`assignCells`, `insertCells`, `ofCells`).
-/

namespace Membercoin

open Memory

/-- `direct_or_indirect`: the `N` inline slots, or the heap buffer with
`_union.capacity`. -/
inductive DirectOrIndirect (T : Type)
  | direct (slots : List (Option T))
  | indirect (buf : List (Option T)) (capacity : Nat)
  deriving Repr, DecidableEq

/-- The fields of `prevector`: `_union` and `_size`. -/
structure Prevector (T : Type) where
  union : DirectOrIndirect T
  rawSize : Nat
  deriving Repr, DecidableEq

namespace Prevector

variable {T : Type} (N : Nat)

/-- `a + b` in `uint32_t`. -/
def sizeAdd (a b : Nat) : Nat := (a + b) % 2 ^ 32

/-- `a - b` in `uint32_t`. -/
def sizeSub (a b : Nat) : Nat := (a + 2 ^ 32 - b % 2 ^ 32) % 2 ^ 32

/-- A new object: `_union = {}` and `_size = 0`. -/
def empty : Prevector T := ⟨.direct (List.replicate N none), 0⟩

/-- `size()`. -/
def size (p : Prevector T) : Nat := if p.rawSize ≤ N then p.rawSize else p.rawSize - N - 1

/-- `capacity()`: `N` when `is_direct()`, else `_union.capacity`; reading
it from a union that holds inline slots is undefined. -/
def capacity (p : Prevector T) : Option Nat :=
  if p.rawSize ≤ N then some N
  else
    match p.union with
    | .indirect _ capacity => some capacity
    | .direct _ => none

/-- The buffer `item_ptr` points into: the inline slots when `is_direct()`,
else the heap buffer. -/
def buffer (p : Prevector T) : Option (List (Option T)) :=
  match p.union with
  | .direct slots => if p.rawSize ≤ N then some slots else none
  | .indirect buf _ => if p.rawSize ≤ N then none else some buf

/-- The buffer with new contents, in the variant the union holds. -/
def setBuffer (p : Prevector T) (buf : List (Option T)) : Prevector T :=
  match p.union with
  | .direct _ => ⟨.direct buf, p.rawSize⟩
  | .indirect _ capacity => ⟨.indirect buf capacity, p.rawSize⟩

/-- A write through `item_ptr`. -/
def modifyBuffer (p : Prevector T) (f : List (Option T) → Option (List (Option T))) : Option (Prevector T) := do
  let buf ← p.buffer N
  let buf' ← f buf
  pure (p.setBuffer buf')

/-- The cells of the elements, `begin()..end()`. -/
def cells (p : Prevector T) : Option (List (Option T)) := do
  let buf ← p.buffer N
  readCells buf 0 (p.size N)

/-- `change_capacity`: to the inline slots when the new capacity is at most
`N`, else to a heap buffer of the new capacity. -/
def changeCapacity (p : Prevector T) (newCapacity : Nat) : Option (Prevector T) :=
  if newCapacity ≤ N then
    if p.rawSize ≤ N then some p
    else
      match p.union with
      | .indirect buf _ => do
        let cells ← readCells buf 0 (p.size N)
        let slots ← writeCells (List.replicate N none) 0 cells
        pure ⟨.direct slots, sizeSub p.rawSize (N + 1)⟩
      | .direct _ => none
  else
    if p.rawSize ≤ N then
      match p.union with
      | .direct slots => do
        let cells ← readCells slots 0 (p.size N)
        let buf ← writeCells (List.replicate newCapacity none) 0 cells
        pure ⟨.indirect buf newCapacity, sizeAdd p.rawSize (N + 1)⟩
      | .indirect .. => none
    else
      match p.union with
      | .indirect buf _ => pure ⟨.indirect (resizeBuffer buf newCapacity none) newCapacity, p.rawSize⟩
      | .direct _ => none

/-- `erase(first, last)` at positions `first` and `last`: `_size` less the
count, and the elements from `last` moved down. -/
def erase (p : Prevector T) (first last : Nat) : Option (Prevector T) :=
  if first ≤ last ∧ last ≤ p.size N then do
    let p' ← p.modifyBuffer N fun buf => memmove buf first last (p.size N - last)
    pure { p' with rawSize := sizeSub p'.rawSize (last - first) }
  else none

section fill

variable [Inhabited T]

/-- `resize`: an erase of the tail, or room for the new elements and `T{}`
written into them. -/
def resize (p : Prevector T) (newSize : Nat) : Option (Prevector T) :=
  if p.size N = newSize then some p
  else if p.size N > newSize then p.erase N newSize (p.size N)
  else do
    let cap ← p.capacity N
    let p ← if newSize > cap then p.changeCapacity N newSize else pure p
    let increase := newSize - p.size N
    let p ← p.modifyBuffer N fun buf => writeCells buf (p.size N) (List.replicate increase (some default))
    pure { p with rawSize := sizeAdd p.rawSize increase }

/-- `clear`. -/
def clear (p : Prevector T) : Option (Prevector T) := p.resize N 0

/-- `assign`: `clear`, room for the cells, then the cells written from the
start. -/
def assignCells (p : Prevector T) (cells : List (Option T)) : Option (Prevector T) := do
  let p ← p.clear N
  let cap ← p.capacity N
  let p ← if cap < cells.length then p.changeCapacity N cells.length else pure p
  let p := { p with rawSize := sizeAdd p.rawSize cells.length }
  p.modifyBuffer N fun buf => writeCells buf 0 cells

/-- `assign(n, val)`. -/
def assign (p : Prevector T) (n : Nat) (val : T) : Option (Prevector T) :=
  p.assignCells N (List.replicate n (some val))

/-- `assign(first, last)` from another container. -/
def assignRange (p : Prevector T) (xs : List T) : Option (Prevector T) := p.assignCells N (xs.map some)

/-- `prevector(n)`. -/
def ofSize (n : Nat) : Option (Prevector T) := (empty N).resize N n

end fill

/-- `reserve`. -/
def reserve (p : Prevector T) (newCapacity : Nat) : Option (Prevector T) := do
  let cap ← p.capacity N
  if newCapacity > cap then p.changeCapacity N newCapacity else pure p

/-- `shrink_to_fit`. -/
def shrinkToFit (p : Prevector T) : Option (Prevector T) := p.changeCapacity N (p.size N)

/-- The filling constructors: room for the cells, then the cells written. -/
def ofCells (cells : List (Option T)) : Option (Prevector T) := do
  let p ← (empty N).changeCapacity N cells.length
  let p := { p with rawSize := sizeAdd p.rawSize cells.length }
  p.modifyBuffer N fun buf => writeCells buf 0 cells

/-- `prevector(n, val)`. -/
def ofFill (n : Nat) (val : T) : Option (Prevector T) := ofCells N (List.replicate n (some val))

/-- `prevector(first, last)` from another container. -/
def ofRange (xs : List T) : Option (Prevector T) := ofCells N (xs.map some)

/-- The copy constructor. -/
def copy (other : Prevector T) : Option (Prevector T) := do
  let cells ← other.cells N
  ofCells N cells

/-- `swap`: the unions and the sizes exchanged. -/
def swap (p other : Prevector T) : Prevector T × Prevector T := (other, p)

/-- `insert` of cells at position `pos`: room for them, growing by half
again, the elements from `pos` moved up, `_size` raised, then the cells
written. -/
def insertCells (p : Prevector T) (pos : Nat) (cells : List (Option T)) : Option (Prevector T) :=
  if pos ≤ p.size N then do
    let newSize := sizeAdd (p.size N) cells.length
    let cap ← p.capacity N
    let p ← if cap < newSize then p.changeCapacity N (sizeAdd newSize (newSize / 2)) else pure p
    let p ← p.modifyBuffer N fun buf => memmove buf (pos + cells.length) pos (p.size N - pos)
    let p := { p with rawSize := sizeAdd p.rawSize cells.length }
    p.modifyBuffer N fun buf => writeCells buf pos cells
  else none

/-- `insert(pos, value)`. -/
def insert (p : Prevector T) (pos : Nat) (val : T) : Option (Prevector T) := p.insertCells N pos [some val]

/-- `insert(pos, count, value)`. -/
def insertFill (p : Prevector T) (pos count : Nat) (val : T) : Option (Prevector T) :=
  p.insertCells N pos (List.replicate count (some val))

/-- `insert(pos, first, last)` from another container. -/
def insertRange (p : Prevector T) (pos : Nat) (xs : List T) : Option (Prevector T) :=
  p.insertCells N pos (xs.map some)

/-- `push_back`. -/
def pushBack (p : Prevector T) (val : T) : Option (Prevector T) := do
  let newSize := sizeAdd (p.size N) 1
  let cap ← p.capacity N
  let p ← if cap < newSize then p.changeCapacity N (sizeAdd newSize (newSize / 2)) else pure p
  let p ← p.modifyBuffer N fun buf => writeCells buf (p.size N) [some val]
  pure { p with rawSize := sizeAdd p.rawSize 1 }

/-- `pop_back`: `erase(end() - 1, end())`, undefined on an empty vector. -/
def popBack (p : Prevector T) : Option (Prevector T) :=
  if p.size N = 0 then none else p.erase N (p.size N - 1) (p.size N)

/-- A write through `operator[]`. -/
def write (p : Prevector T) (pos : Nat) (val : T) : Option (Prevector T) :=
  p.modifyBuffer N fun buf => writeCells buf pos [some val]

/-- The loop of `operator<` over the cells of two vectors of one size. -/
def ltLoop [LT T] [DecidableRel (α := T) (· < ·)] : List (Option T) → List (Option T) → Option Bool
  | [], _ => some false
  | a :: as, b :: bs => do
    let x ← a
    let y ← b
    if x < y then some true else if y < x then some false else ltLoop as bs
  | _ :: _, [] => none

/-- `operator<`: shorter first, then the first element that differs. -/
def lt [LT T] [DecidableRel (α := T) (· < ·)] (p other : Prevector T) : Option Bool :=
  if p.size N < other.size N then some true
  else if p.size N > other.size N then some false
  else do
    let c1 ← p.cells N
    let c2 ← other.cells N
    ltLoop c1 c2

end Prevector

end Membercoin
