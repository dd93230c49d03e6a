import Mathlib

/-!
# Signed occurrences and their sums in an abelian group

A list of signed occurrences `(s, a)` (an insertion of `a` with `s = 1`, a
removal with `s = -1`) has a net multiplicity for every `a` (`net`). A sum of
`s • f a` over the list, in an abelian group, is the image of the net
multiplicities, as a finitely supported function, under the linear map that
sends `a` to `f a` (`sum_zsmul_eq_linearCombination`). So it depends on the net
multiplicities alone (`sum_zsmul_eq_of_net_eq`): the order of the occurrences
does not matter, and an insertion cancels a removal of the same element
wherever the two stand.

`XorWord α` is a word type under exclusive or: an abelian group in which every
element is its own inverse, so that a sum there is the exclusive or of the
words and `s • x = x` for `s = 1` and `s = -1` (`zsmul_of_unit`).
-/

namespace NetSum

variable {α G : Type}

section Net

variable [DecidableEq α]

/-- The net multiplicity of `a`: the signs of its occurrences, summed. -/
def net (ops : List (ℤ × α)) (a : α) : ℤ := ((ops.filter (·.2 = a)).map (·.1)).sum

@[simp] theorem net_nil (a : α) : net [] a = 0 := rfl

theorem net_cons (o : ℤ × α) (ops : List (ℤ × α)) (a : α) :
    net (o :: ops) a = (if o.2 = a then o.1 else 0) + net ops a := by
  by_cases h : o.2 = a <;> simp [net, h]

theorem net_append (ops ops' : List (ℤ × α)) (a : α) : net (ops ++ ops') a = net ops a + net ops' a := by
  simp [net, List.filter_append]

theorem net_map_neg (ops : List (ℤ × α)) (a : α) : net (ops.map fun o => (-o.1, o.2)) a = -net ops a := by
  induction ops with
  | nil => simp
  | cons o ops ih =>
    rw [List.map_cons, net_cons, net_cons, ih, neg_add]
    split_ifs <;> simp

end Net

/-- The net multiplicities as a finitely supported function. -/
noncomputable def netSupp (ops : List (ℤ × α)) : α →₀ ℤ := (ops.map fun o => Finsupp.single o.2 o.1).sum

theorem netSupp_apply [DecidableEq α] (ops : List (ℤ × α)) (a : α) : netSupp ops a = net ops a := by
  induction ops with
  | nil => simp [netSupp]
  | cons o ops ih =>
    have hcons : netSupp (o :: ops) = Finsupp.single o.2 o.1 + netSupp ops := by
      simp [netSupp]
    rw [hcons, Finsupp.add_apply, ih, net_cons, Finsupp.single_apply]

variable [AddCommGroup G]

/-- A signed sum is the linear image of the net multiplicities. -/
theorem sum_zsmul_eq_linearCombination (f : α → G) (ops : List (ℤ × α)) :
    (ops.map fun o => o.1 • f o.2).sum = Finsupp.linearCombination ℤ f (netSupp ops) := by
  rw [netSupp, map_list_sum, List.map_map]
  congr 1
  apply List.map_congr_left
  intro o _
  exact (Finsupp.linearCombination_single ℤ o.1 o.2).symm

/-- Two lists with the same net multiplicities have the same signed sums. -/
theorem sum_zsmul_eq_of_net_eq [DecidableEq α] (f : α → G) {ops ops' : List (ℤ × α)} (h : ∀ a, net ops a = net ops' a) :
    (ops.map fun o => o.1 • f o.2).sum = (ops'.map fun o => o.1 • f o.2).sum := by
  rw [sum_zsmul_eq_linearCombination, sum_zsmul_eq_linearCombination]
  congr 1
  ext a
  rw [netSupp_apply, netSupp_apply, h]

/-- A signed sum over the elements that can have a nonzero net multiplicity. -/
theorem sum_zsmul_eq_sum_net [DecidableEq α] (f : α → G) (ops : List (ℤ × α)) {S : Finset α}
    (hS : ∀ a, net ops a ≠ 0 → a ∈ S) : (ops.map fun o => o.1 • f o.2).sum = ∑ a ∈ S, net ops a • f a := by
  have hsub : (netSupp ops).support ⊆ S := fun a ha => hS a (by rwa [Finsupp.mem_support_iff, netSupp_apply] at ha)
  rw [sum_zsmul_eq_linearCombination, Finsupp.linearCombination_apply,
    Finsupp.sum_of_support_subset _ hsub _ fun a _ => zero_smul ℤ (f a)]
  simp only [netSupp_apply]

/-- Negating every sign negates the sum. -/
theorem sum_zsmul_map_neg (f : α → G) (ops : List (ℤ × α)) :
    ((ops.map fun o => (-o.1, o.2)).map fun o => o.1 • f o.2).sum = -(ops.map fun o => o.1 • f o.2).sum := by
  induction ops with
  | nil => simp
  | cons o ops ih =>
    rw [List.map_cons, List.map_cons, List.sum_cons, ih, List.map_cons, List.sum_cons, neg_zsmul, neg_add]

end NetSum

/-- A word under exclusive or. -/
@[ext]
structure XorWord (α : Type) where
  val : α
  deriving DecidableEq

namespace XorWord

variable {α : Type} [XorOp α] [Zero α]

instance : Zero (XorWord α) := ⟨⟨0⟩⟩
instance : Add (XorWord α) := ⟨fun a b => ⟨a.val ^^^ b.val⟩⟩
instance : Neg (XorWord α) := ⟨fun a => a⟩

/-- The group of words under `^^^`, from its laws. -/
@[reducible] def addCommGroup (hassoc : ∀ a b c : α, a ^^^ b ^^^ c = a ^^^ (b ^^^ c))
    (hcomm : ∀ a b : α, a ^^^ b = b ^^^ a) (hzero : ∀ a : α, 0 ^^^ a = a) (hself : ∀ a : α, a ^^^ a = 0) :
    AddCommGroup (XorWord α) where
  add_assoc a b c := XorWord.ext (hassoc a.val b.val c.val)
  zero_add a := XorWord.ext (hzero a.val)
  add_zero a := XorWord.ext (show a.val ^^^ 0 = a.val by rw [hcomm]; exact hzero _)
  add_comm a b := XorWord.ext (hcomm a.val b.val)
  neg_add_cancel a := XorWord.ext (hself a.val)
  nsmul := nsmulRec
  zsmul := zsmulRec

instance : AddCommGroup (XorWord UInt64) :=
  addCommGroup UInt64.xor_assoc UInt64.xor_comm (fun _ => UInt64.zero_xor) (fun _ => UInt64.xor_self)

instance : AddCommGroup (XorWord UInt32) :=
  addCommGroup UInt32.xor_assoc UInt32.xor_comm (fun _ => UInt32.zero_xor) (fun _ => UInt32.xor_self)

@[simp] theorem add_val64 (a b : XorWord UInt64) : (a + b).val = a.val ^^^ b.val := rfl
@[simp] theorem add_val32 (a b : XorWord UInt32) : (a + b).val = a.val ^^^ b.val := rfl
@[simp] theorem zero_val64 : (0 : XorWord UInt64).val = 0 := rfl
@[simp] theorem zero_val32 : (0 : XorWord UInt32).val = 0 := rfl
@[simp] theorem neg_eq64 (a : XorWord UInt64) : -a = a := rfl
@[simp] theorem neg_eq32 (a : XorWord UInt32) : -a = a := rfl

/-- A sign of `1` or `-1` leaves a word as it is. -/
theorem zsmul_of_unit {W : Type} [AddCommGroup W] (hneg : ∀ a : W, -a = a) {s : ℤ} (hs : s = 1 ∨ s = -1) (a : W) :
    s • a = a := by
  rcases hs with rfl | rfl
  · exact one_zsmul a
  · rw [neg_one_zsmul, hneg]

end XorWord
