import Mathlib

/-!
# Walking the set bits of a number in increasing order

`Nat.bitIndices c` lists the positions of the set bits of `c` in increasing
order. A scan that visits them one by one keeps a cursor `k` and the number
`i` of bits it has passed; `SetBitsAbove c k i` says that the set bits at or
above the cursor are exactly the bit indices from the `i`-th on. The lemmas
below give what such a scan needs at each step: a set bit is left to find
(`shiftRight_ne_zero`), the next one is the `i`-th bit index (`least`), and
the invariant moves past it (`next`); once all are passed, nothing is left
above the cursor (`shiftRight_eq_zero`). The number of set bits, counted on
`Nat.bits`, is the length of the index list.
-/

namespace SetBits

/-- The set bits of `c` counted on its binary digits. -/
theorem count_bits_eq_length_bitIndices (c : Nat) :
    (Nat.bits c).count true = (Nat.bitIndices c).length := by
  induction c using Nat.binaryRec' with
  | zero => simp
  | bit b n hb ih =>
    rw [Nat.bits_append_bit n b hb]
    cases b with
    | false => simp [ih]
    | true => simp [ih]

theorem shiftRight_eq_zero_iff (c k : Nat) : c >>> k = 0 ↔ ∀ j, k ≤ j → c.testBit j = false := by
  constructor
  · intro h j hj
    have hbit : (c >>> k).testBit (j - k) = c.testBit (k + (j - k)) := Nat.testBit_shiftRight c
    rw [h, Nat.zero_testBit, Nat.add_sub_cancel' hj] at hbit
    exact hbit.symm
  · intro h
    apply Nat.zero_of_testBit_eq_false
    intro j
    rw [Nat.testBit_shiftRight]
    exact h (k + j) (Nat.le_add_right k j)

theorem shiftRight_and_one_eq_zero_iff (c k : Nat) : (c >>> k) &&& 1 = 0 ↔ c.testBit k = false := by
  rw [Nat.and_one_is_mod, Nat.testBit_eq_decide_div_mod_eq, Nat.shiftRight_eq_div_pow]
  constructor
  · intro h
    simp [h]
  · intro h
    simp only [decide_eq_false_iff_not] at h
    omega

/-- A set bit of a number below `2 ^ size` is below `size`. -/
theorem lt_of_testBit {c size j : Nat} (hc : c < 2 ^ size) (hj : c.testBit j = true) : j < size := by
  by_contra hge
  have hpow : 2 ^ size ≤ 2 ^ j := Nat.pow_le_pow_right (by decide) (by omega)
  rw [Nat.testBit_lt_two_pow (by omega)] at hj
  cases hj

/-- In a strictly increasing list, what follows position `i` is what
follows from `i` on and is larger than the `i`-th element. -/
theorem mem_drop_succ_iff {L : List Nat} (hL : L.SortedLT) {i : Nat} (hi : i < L.length)
    (x : Nat) : x ∈ L.drop (i + 1) ↔ x ∈ L.drop i ∧ L[i] < x := by
  have hcons := List.drop_eq_getElem_cons hi
  have hpair : (L.drop i).Pairwise (· < ·) := hL.pairwise.sublist (List.drop_sublist i L)
  rw [hcons, List.pairwise_cons] at hpair
  constructor
  · intro hx
    exact ⟨hcons ▸ List.mem_cons_of_mem _ hx, hpair.1 x hx⟩
  · rintro ⟨hx, hlt⟩
    rw [hcons, List.mem_cons] at hx
    rcases hx with rfl | hx
    · exact absurd hlt (lt_irrefl _)
    · exact hx

/-- The set bits of `c` at or above `k` are the bit indices from the `i`-th
on. -/
def SetBitsAbove (c k i : Nat) : Prop :=
  ∀ j, j ∈ (Nat.bitIndices c).drop i ↔ c.testBit j = true ∧ k ≤ j

theorem setBitsAbove_zero (c : Nat) : SetBitsAbove c 0 0 := by
  intro j
  simp

namespace SetBitsAbove

variable {c k i : Nat}

/-- The `i`-th bit index is the lowest set bit at or above the cursor. -/
theorem least (h : SetBitsAbove c k i) (hi : i < (Nat.bitIndices c).length) :
    k ≤ (Nat.bitIndices c)[i] ∧ c.testBit (Nat.bitIndices c)[i] = true ∧
      ∀ j, k ≤ j → j < (Nat.bitIndices c)[i] → c.testBit j = false := by
  have hmem : (Nat.bitIndices c)[i] ∈ (Nat.bitIndices c).drop i := by
    rw [List.drop_eq_getElem_cons hi]
    exact List.mem_cons_self
  obtain ⟨hset, hk⟩ := (h _).mp hmem
  refine ⟨hk, hset, ?_⟩
  intro j hkj hj
  by_contra hbit
  have hj' := (h j).mpr ⟨Bool.not_eq_false _ ▸ hbit, hkj⟩
  rw [List.drop_eq_getElem_cons hi, List.mem_cons] at hj'
  rcases hj' with rfl | hj'
  · exact lt_irrefl _ hj
  · have hgt := ((mem_drop_succ_iff Nat.bitIndices_sorted hi j).mp hj').2
    omega

/-- Past the `i`-th bit index, the invariant holds for `i + 1`. -/
theorem next (h : SetBitsAbove c k i) (hi : i < (Nat.bitIndices c).length) :
    SetBitsAbove c ((Nat.bitIndices c)[i] + 1) (i + 1) := by
  have hk := (h.least hi).1
  intro j
  rw [mem_drop_succ_iff Nat.bitIndices_sorted hi, h j]
  constructor
  · rintro ⟨⟨hset, -⟩, hlt⟩
    exact ⟨hset, hlt⟩
  · rintro ⟨hset, hlt⟩
    exact ⟨⟨hset, by omega⟩, hlt⟩

/-- While bit indices remain, a set bit is left at or above the cursor. -/
theorem shiftRight_ne_zero (h : SetBitsAbove c k i) (hi : i < (Nat.bitIndices c).length) :
    c >>> k ≠ 0 := by
  obtain ⟨hk, hset, -⟩ := h.least hi
  rw [ne_eq, shiftRight_eq_zero_iff]
  intro hall
  rw [hall _ hk] at hset
  cases hset

/-- Once every bit index is passed, no set bit is left above the cursor. -/
theorem shiftRight_eq_zero (h : SetBitsAbove c k i) (hi : (Nat.bitIndices c).length ≤ i) :
    c >>> k = 0 := by
  rw [shiftRight_eq_zero_iff]
  intro j hj
  by_contra hbit
  have hmem := (h j).mpr ⟨Bool.not_eq_false _ ▸ hbit, hj⟩
  rw [List.drop_eq_nil_of_le hi] at hmem
  cases hmem

end SetBitsAbove

end SetBits
