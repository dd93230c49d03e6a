import Mathlib

/-!
# Closures computed by a worklist

A worklist search from `a` explores the `r`-successors of what it has taken,
and may skip a set `K` that is closed under `r`. When it stops, what it took
contains the start's successors and the successors of everything it took,
up to `K`; then it took every node reachable from `a` outside `K`
(`transGen_mem_of_closed`).
-/

namespace Worklist

variable {α : Type} {r : α → α → Prop} {a : α} {S K : α → Prop}

/-- A set that holds the successors of `a` and of each of its members, up to a
set `K` closed under `r`, holds everything reachable from `a` outside `K`. -/
theorem transGen_mem_of_closed (hstart : ∀ y, r a y → S y ∨ K y) (hstep : ∀ x, S x → ∀ y, r x y → S y ∨ K y)
    (hK : ∀ x, K x → ∀ y, r x y → K y) {y : α} (hy : Relation.TransGen r a y) (hyK : ¬K y) : S y := by
  induction hy with
  | single hay => exact (hstart _ hay).resolve_right hyK
  | tail hab hbc ih =>
    rename_i b c
    have hbK : ¬K b := fun hb => hyK (hK b hb c hbc)
    exact (hstep b (ih hbK) c hbc).resolve_right hyK

end Worklist
