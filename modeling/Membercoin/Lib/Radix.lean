import Mathlib

/-!
# Numerals, most significant digit first

`radixValue b ds` is the number that the digits `ds` of base `b` stand for,
most significant first: Mathlib's `Nat.ofDigits` on the reversed list. A step
of a conversion loop appends a digit (`radixValue_append_singleton`), and
digits of one length are determined by their value
(`eq_of_radixValue_eq`).

A string of bits cut into groups of `k` bits is the numeral of base `2 ^ k`
of those groups. Two groupings of one string, each followed by fewer bits than
a group, are the same groups (`regroup_eq`): a decoder that keeps the value of
what it has read, and the number of bits it holds back, returns the bytes
that the encoder started from. For the bit operations of such loops,
`shiftLeft_or_eq_add` and `and_eq_mod` turn a shift and an `or`, or a mask, into
arithmetic.

A conversion between two bases that keeps a numeral of fixed width and runs
`buf = buf * m + d` over it, from the low digit up, is `mulAdd`; its carry out of
the top digit is zero while the buffer has room (`mulAdd_room`), and the room
a buffer needs for `n` input digits follows from one comparison of powers of
the two bases (`pow_le_pow_of_pow_le`). Numerals without a leading zero digit are
determined by their value (`eq_of_radixValue_eq_of_head`).
-/

namespace Radix

/-- The value of the digits `ds` of base `b`, most significant first. -/
def radixValue (b : Nat) (ds : List Nat) : Nat := Nat.ofDigits b ds.reverse

@[simp] theorem radixValue_nil (b : Nat) : radixValue b [] = 0 := rfl

/-- One more digit at the low end. -/
@[simp] theorem radixValue_append_singleton (b : Nat) (ds : List Nat) (d : Nat) :
    radixValue b (ds ++ [d]) = radixValue b ds * b + d := by
  rw [radixValue, List.reverse_append, List.reverse_singleton, List.singleton_append, Nat.ofDigits_cons,
    radixValue]
  ring

/-- One more digit at the high end. -/
theorem radixValue_cons (b : Nat) (ds : List Nat) (d : Nat) :
    radixValue b (d :: ds) = d * b ^ ds.length + radixValue b ds := by
  rw [radixValue, Nat.ofDigits_reverse_cons, radixValue]
  ring

/-- Two runs of digits, the second at the low end. -/
theorem radixValue_append (b : Nat) (xs ys : List Nat) :
    radixValue b (xs ++ ys) = radixValue b xs * b ^ ys.length + radixValue b ys := by
  induction ys using List.reverseRecOn with
  | nil => simp
  | append_singleton ys d ih =>
    rw [← List.append_assoc, radixValue_append_singleton, ih, radixValue_append_singleton,
      List.length_append, List.length_singleton, pow_succ]
    ring

theorem radixValue_lt {b : Nat} (hb : 1 < b) {ds : List Nat} (h : ∀ d ∈ ds, d < b) :
    radixValue b ds < b ^ ds.length := by
  rw [radixValue, ← List.length_reverse]
  exact Nat.ofDigits_lt_base_pow_length hb fun d hd => h d (List.mem_reverse.mp hd)

/-- Digits of one length are determined by their value. -/
theorem eq_of_radixValue_eq {b : Nat} (hb : 1 < b) {ds ds' : List Nat} (hlen : ds.length = ds'.length)
    (h : ∀ d ∈ ds, d < b) (h' : ∀ d ∈ ds', d < b) (heq : radixValue b ds = radixValue b ds') : ds = ds' := by
  have hrev : ds.reverse = ds'.reverse :=
    Nat.ofDigits_inj_of_len_eq hb (by rw [List.length_reverse, List.length_reverse, hlen])
      (fun d hd => h d (List.mem_reverse.mp hd)) (fun d hd => h' d (List.mem_reverse.mp hd)) heq
  exact List.reverse_inj.mp hrev

/-- Two groupings of one bit string into `k`-bit groups: `xs` followed by `p`
zero bits, and `ys` followed by `r` bits of value `L`, each with fewer bits after
the groups than a group has. They are the same groups, with the same number of
bits after them, and those bits are zero. -/
theorem regroup_eq {k p r L : Nat} {xs ys : List Nat} (hxs : ∀ d ∈ xs, d < 2 ^ k)
    (hys : ∀ d ∈ ys, d < 2 ^ k) (hp : p < k) (hr : r < k)
    (hlen : k * xs.length + p = k * ys.length + r) (hL : L < 2 ^ r)
    (hval : radixValue (2 ^ k) xs * 2 ^ p = radixValue (2 ^ k) ys * 2 ^ r + L) :
    xs = ys ∧ p = r ∧ L = 0 := by
  have hk : 0 < k := by omega
  have hpr : p = r := by
    have h := congrArg (· % k) hlen
    simp only [Nat.mul_add_mod, Nat.mod_eq_of_lt hp, Nat.mod_eq_of_lt hr] at h
    exact h
  subst hpr
  have hn : xs.length = ys.length := by
    have h := congrArg (· / k) hlen
    simp only [Nat.mul_add_div hk, Nat.div_eq_of_lt hp, Nat.add_zero] at h
    exact h
  have hdiv : radixValue (2 ^ k) xs = radixValue (2 ^ k) ys := by
    have h := congrArg (· / 2 ^ p) hval
    simp only [Nat.mul_div_cancel _ (Nat.two_pow_pos p)] at h
    rw [h, Nat.mul_comm, Nat.mul_add_div (Nat.two_pow_pos p), Nat.div_eq_of_lt hL, Nat.add_zero]
  have hb : 1 < 2 ^ k := Nat.one_lt_two_pow (by omega)
  refine ⟨eq_of_radixValue_eq hb hn hxs hys hdiv, rfl, ?_⟩
  rw [hdiv] at hval
  omega

/-- The value of bytes after one more byte. -/
theorem radixValue_bytes_append (xs : List UInt8) (b : UInt8) :
    radixValue 256 ((xs ++ [b]).map UInt8.toNat) = radixValue 256 (xs.map UInt8.toNat) * 256 + b.toNat := by
  rw [List.map_append, List.map_singleton, radixValue_append_singleton]

/-- The value of bytes after one more byte, stored from a number below `256`. -/
theorem radixValue_push {xs : List UInt8} {n : Nat} (hn : n < 256) :
    radixValue 256 ((xs ++ [n.toUInt8]).map UInt8.toNat) = radixValue 256 (xs.map UInt8.toNat) * 256 + n := by
  rw [radixValue_bytes_append, UInt8.toNat_ofNat_of_lt' hn]

/-- Bytes as digits of base `2 ^ 8`. -/
theorem toNat_lt_of_mem_bytes (xs : List UInt8) : ∀ d ∈ xs.map UInt8.toNat, d < 2 ^ 8 := by
  intro d hd
  obtain ⟨b, -, rfl⟩ := List.mem_map.mp hd
  exact b.toNat_lt

/-- Bytes are determined by their values. -/
theorem eq_of_map_toNat_eq {xs ys : List UInt8} (h : xs.map UInt8.toNat = ys.map UInt8.toNat) : xs = ys :=
  List.map_injective_iff.mpr (fun _ _ hab => UInt8.toNat_inj.mp hab) h

/-- Digits below `256`, stored as bytes, read back as themselves. -/
theorem map_toNat_toUInt8 {ds : List Nat} (h : ∀ d ∈ ds, d < 256) : (ds.map Nat.toUInt8).map UInt8.toNat = ds := by
  rw [List.map_map]
  conv_rhs => rw [← List.map_id ds]
  exact List.map_congr_left fun d hd => UInt8.toNat_ofNat_of_lt' (h d hd)

theorem map_toUInt8_toNat (xs : List UInt8) : (xs.map UInt8.toNat).map Nat.toUInt8 = xs := by
  rw [List.map_map]
  conv_rhs => rw [← List.map_id xs]
  exact List.map_congr_left fun _ _ => UInt8.ofNat_toNat

theorem head?_map_toNat {xs : List UInt8} (h : xs.head? ≠ some 0) : (xs.map UInt8.toNat).head? ≠ some 0 := by
  cases xs with
  | nil => simp
  | cons x xs =>
    rw [List.map_cons, List.head?_cons, ne_eq, Option.some_inj]
    intro hx
    have hx0 : x = 0 := by
      apply UInt8.toNat_inj.mp
      rw [hx]
      rfl
    exact h (by rw [List.head?_cons, hx0])

theorem head?_map_toUInt8 {ds : List Nat} (hds : ∀ d ∈ ds, d < 256) (h : ds.head? ≠ some 0) :
    (ds.map Nat.toUInt8).head? ≠ some 0 := by
  cases ds with
  | nil => simp
  | cons d ds =>
    rw [List.map_cons, List.head?_cons, ne_eq, Option.some_inj]
    intro hd
    have hd0 : d = 0 := by
      rw [← UInt8.toNat_ofNat_of_lt' (hds d List.mem_cons_self)]
      exact congrArg UInt8.toNat hd
    exact h (by rw [List.head?_cons, hd0])

/-- A value shifted past `b` is added, not or-ed, to `b`. -/
theorem shiftLeft_or_eq_add {a b k : Nat} (hb : b < 2 ^ k) : a <<< k ||| b = a * 2 ^ k + b := by
  rw [← Nat.shiftLeft_add_eq_or_of_lt hb, Nat.shiftLeft_eq]

/-- A mask of the low `n` bits is the remainder by `2 ^ n`. -/
theorem and_eq_mod {x m : Nat} (n : Nat) (hm : m = 2 ^ n - 1) : x &&& m = x % 2 ^ n := by
  rw [hm, Nat.and_two_pow_sub_one_eq_mod]

/-! ## Leading zero digits -/

theorem radixValue_replicate_zero (b n : Nat) : radixValue b (List.replicate n 0) = 0 := by
  induction n with
  | zero => rfl
  | succ n ih => rw [List.replicate_succ, radixValue_cons, ih, Nat.zero_mul]

/-- Dropping leading zero digits keeps the value. -/
@[simp] theorem radixValue_dropWhile_zero (b : Nat) (ds : List Nat) :
    radixValue b (ds.dropWhile (· == 0)) = radixValue b ds := by
  induction ds with
  | nil => rfl
  | cons d ds ih =>
    by_cases hd : d = 0
    · subst hd
      rw [List.dropWhile_cons_of_pos (by rfl), ih, radixValue_cons, Nat.zero_mul, Nat.zero_add]
    · rw [List.dropWhile_cons_of_neg (by simpa using hd)]

theorem head?_dropWhile_zero (ds : List Nat) : (ds.dropWhile (· == 0)).head? ≠ some 0 := by
  induction ds with
  | nil => simp
  | cons d ds ih =>
    by_cases hd : d = 0
    · rwa [List.dropWhile_cons_of_pos (by simp [hd])]
    · rw [List.dropWhile_cons_of_neg (by simpa using hd)]
      simpa using hd

/-- Every list is some copies of `a` followed by a list that does not start with `a`. -/
theorem exists_eq_replicate_append {α : Type} (a : α) (l : List α) :
    ∃ n r, l = List.replicate n a ++ r ∧ r.head? ≠ some a := by
  induction l with
  | nil => exact ⟨0, [], rfl, by simp⟩
  | cons x l ih =>
    by_cases hx : x = a
    · obtain ⟨n, r, rfl, hr⟩ := ih
      exact ⟨n + 1, r, by rw [hx, List.replicate_succ, List.cons_append], hr⟩
    · exact ⟨0, x :: l, rfl, by simpa using hx⟩

/-- A numeral that starts with a nonzero digit is at least the base to the power
of the number of digits after it. -/
theorem pow_length_le_radixValue {b d : Nat} (hd : d ≠ 0) (ds : List Nat) :
    b ^ ds.length ≤ radixValue b (d :: ds) := by
  rw [radixValue_cons]
  have : b ^ ds.length ≤ d * b ^ ds.length := Nat.le_mul_of_pos_left _ (Nat.pos_of_ne_zero hd)
  omega

theorem length_le_of_radixValue_eq {b : Nat} (hb : 1 < b) {xs ys : List Nat} (hxs : ∀ d ∈ xs, d < b)
    (hys : ys.head? ≠ some 0) (heq : radixValue b ys = radixValue b xs) : ys.length ≤ xs.length := by
  cases ys with
  | nil => exact Nat.zero_le _
  | cons y ys =>
    have hy : y ≠ 0 := fun h => hys (by rw [h, List.head?_cons])
    have hlt : b ^ ys.length < b ^ xs.length :=
      calc b ^ ys.length ≤ radixValue b (y :: ys) := pow_length_le_radixValue hy ys
        _ = radixValue b xs := heq
        _ < b ^ xs.length := radixValue_lt hb hxs
    exact (Nat.pow_lt_pow_iff_right hb).mp hlt

/-- Numerals without a leading zero digit are determined by their value. -/
theorem eq_of_radixValue_eq_of_head {b : Nat} (hb : 1 < b) {xs ys : List Nat}
    (hxs : ∀ d ∈ xs, d < b) (hys : ∀ d ∈ ys, d < b) (hx : xs.head? ≠ some 0) (hy : ys.head? ≠ some 0)
    (heq : radixValue b xs = radixValue b ys) : xs = ys := by
  have hlen : xs.length = ys.length :=
    Nat.le_antisymm (length_le_of_radixValue_eq hb hys hx heq) (length_le_of_radixValue_eq hb hxs hy heq.symm)
  exact eq_of_radixValue_eq hb hlen hxs hys heq

/-! ## Trailing zero digits -/

section trailing

variable (b : Nat)

/-- A numeral is its digits up to the last nonzero one, shifted past the zeros
after them. -/
theorem radixValue_eq_rdropWhile_zero (ds : List Nat) :
    radixValue b ds =
      radixValue b (ds.rdropWhile (· == 0)) * b ^ (ds.length - (ds.rdropWhile (· == 0)).length) := by
  induction ds using List.reverseRecOn with
  | nil => simp
  | append_singleton ds d ih =>
    have hle := (List.rdropWhile_prefix (· == 0) ds).length_le
    by_cases hd : d = 0
    · subst hd
      rw [List.rdropWhile_concat_pos _ _ _ (by rfl), radixValue_append_singleton, ih, List.length_append,
        List.length_singleton, Nat.sub_add_comm hle, pow_succ, Nat.mul_assoc, Nat.add_zero]
    · rw [List.rdropWhile_concat_neg _ _ _ (by simpa using hd), Nat.sub_self, pow_zero, Nat.mul_one]

theorem radixValue_rdropWhile_le (hb : 0 < b) (ds : List Nat) :
    radixValue b (ds.rdropWhile (· == 0)) ≤ radixValue b ds := by
  conv_rhs => rw [radixValue_eq_rdropWhile_zero b ds]
  exact Nat.le_mul_of_pos_right _ (Nat.pow_pos hb)

/-- The digits up to the last nonzero one only grow as digits are appended. -/
theorem radixValue_rdropWhile_mono (hb : 0 < b) (ds es : List Nat) :
    radixValue b (ds.rdropWhile (· == 0)) ≤ radixValue b ((ds ++ es).rdropWhile (· == 0)) := by
  induction es generalizing ds with
  | nil => rw [List.append_nil]
  | cons e es ih =>
    have hstep : radixValue b (ds.rdropWhile (· == 0)) ≤ radixValue b ((ds ++ [e]).rdropWhile (· == 0)) := by
      by_cases he : e = 0
      · rw [he, List.rdropWhile_concat_pos _ _ _ (by rfl)]
      · rw [List.rdropWhile_concat_neg _ _ _ (by simpa using he), radixValue_append_singleton]
        have := radixValue_rdropWhile_le b hb ds
        have : radixValue b ds ≤ radixValue b ds * b := Nat.le_mul_of_pos_right _ hb
        omega
    rw [← List.singleton_append, ← List.append_assoc]
    exact Nat.le_trans hstep (ih _)

/-- Unless they are all zero, the digits up to the last nonzero one are not a
multiple of the base. -/
theorem radixValue_rdropWhile_mod_ne_zero {ds : List Nat} (hds : ∀ d ∈ ds, d < b)
    (h : ds.rdropWhile (· == 0) ≠ []) : radixValue b (ds.rdropWhile (· == 0)) % b ≠ 0 := by
  have hlast := List.rdropWhile_last_not (· == 0) ds h
  have hlt : (ds.rdropWhile (· == 0)).getLast h < b :=
    hds _ ((List.rdropWhile_prefix _ ds).subset (List.getLast_mem h))
  rw [← List.dropLast_append_getLast h, radixValue_append_singleton, Nat.mul_add_mod_self_right,
    Nat.mod_eq_of_lt hlt]
  simpa using hlast

end trailing

/-! ## Multiply-accumulate on a numeral of fixed width -/

/-- `buf * m + carry` in base `b` over the digits of `buf`, least significant
first: each digit takes the carry plus `m` times itself, keeps that modulo `b`
and passes the quotient on. The second component is the carry out of the top
digit. -/
def mulAdd (b m : Nat) (buf : List Nat) (carry : Nat) : List Nat × Nat :=
  buf.foldr (fun d r => ((r.2 + m * d) % b :: r.1, (r.2 + m * d) / b)) ([], carry)

section mulAdd

variable {b m : Nat}

@[simp] theorem mulAdd_nil (carry : Nat) : mulAdd b m [] carry = ([], carry) := rfl

theorem mulAdd_cons (d : Nat) (ds : List Nat) (carry : Nat) :
    mulAdd b m (d :: ds) carry =
      (((mulAdd b m ds carry).2 + m * d) % b :: (mulAdd b m ds carry).1,
        ((mulAdd b m ds carry).2 + m * d) / b) := rfl

@[simp] theorem length_mulAdd (buf : List Nat) (carry : Nat) : (mulAdd b m buf carry).1.length = buf.length := by
  induction buf with
  | nil => rfl
  | cons d ds ih => rw [mulAdd_cons, List.length_cons, ih, List.length_cons]

theorem mulAdd_lt (hb : 0 < b) (buf : List Nat) (carry : Nat) : ∀ d ∈ (mulAdd b m buf carry).1, d < b := by
  induction buf with
  | nil => simp
  | cons d ds ih =>
    rw [mulAdd_cons]
    intro x hx
    rcases List.mem_cons.mp hx with rfl | hx
    · exact Nat.mod_lt _ hb
    · exact ih x hx

/-- The digits and the carry out of the top together are `buf * m + carry`. -/
theorem mulAdd_value (buf : List Nat) (carry : Nat) :
    radixValue b (mulAdd b m buf carry).1 + (mulAdd b m buf carry).2 * b ^ buf.length =
      radixValue b buf * m + carry := by
  induction buf with
  | nil => simp
  | cons d ds ih =>
    set r := mulAdd b m ds carry with hr
    have hsplit : (r.2 + m * d) % b + b * ((r.2 + m * d) / b) = r.2 + m * d := Nat.mod_add_div _ _
    have hlen : r.1.length = ds.length := length_mulAdd ds carry
    rw [mulAdd_cons, ← hr, radixValue_cons, hlen, radixValue_cons, List.length_cons, pow_succ]
    calc (r.2 + m * d) % b * b ^ ds.length + radixValue b r.1 + (r.2 + m * d) / b * (b ^ ds.length * b)
        = ((r.2 + m * d) % b + b * ((r.2 + m * d) / b)) * b ^ ds.length + radixValue b r.1 := by ring
      _ = radixValue b r.1 + r.2 * b ^ ds.length + m * d * b ^ ds.length := by rw [hsplit]; ring
      _ = (d * b ^ ds.length + radixValue b ds) * m + carry := by rw [ih]; ring

/-- Without overflow past the top digit the carry out is zero. -/
theorem mulAdd_carry_eq_zero (buf : List Nat) (carry : Nat) (h : radixValue b buf * m + carry < b ^ buf.length) :
    (mulAdd b m buf carry).2 = 0 := by
  have hv := mulAdd_value (b := b) (m := m) buf carry
  by_contra hne
  have : b ^ buf.length ≤ (mulAdd b m buf carry).2 * b ^ buf.length := Nat.le_mul_of_pos_left _ (Nat.pos_of_ne_zero hne)
  omega

/-- One step of a conversion with room for `k + 1` more digits of base `m`:
no carry out, the value is `buf * m + d`, and room is left for `k` more. -/
theorem mulAdd_room {d k : Nat} {buf : List Nat} (hd : d < m)
    (hroom : (radixValue b buf + 1) * m ^ (k + 1) ≤ b ^ buf.length) :
    (mulAdd b m buf d).2 = 0 ∧ radixValue b (mulAdd b m buf d).1 = radixValue b buf * m + d ∧
      (radixValue b (mulAdd b m buf d).1 + 1) * m ^ k ≤ b ^ buf.length := by
  have hmk : 0 < m ^ k := Nat.pow_pos (by omega)
  have hnext : radixValue b buf * m + d + 1 ≤ (radixValue b buf + 1) * m := by
    rw [Nat.add_mul, Nat.one_mul]
    omega
  have hfit : (radixValue b buf * m + d + 1) * m ^ k ≤ b ^ buf.length :=
    calc (radixValue b buf * m + d + 1) * m ^ k ≤ (radixValue b buf + 1) * m * m ^ k :=
          Nat.mul_le_mul_right _ hnext
      _ = (radixValue b buf + 1) * m ^ (k + 1) := by rw [pow_succ]; ring
      _ ≤ b ^ buf.length := hroom
  have hlt : radixValue b buf * m + d < b ^ buf.length :=
    Nat.lt_of_lt_of_le (Nat.lt_succ_self _) (Nat.le_trans (Nat.le_mul_of_pos_right _ hmk) hfit)
  have hc := mulAdd_carry_eq_zero buf d hlt
  have hv := mulAdd_value (b := b) (m := m) buf d
  rw [hc, Nat.zero_mul, Nat.add_zero] at hv
  exact ⟨hc, hv, by rw [hv]; exact hfit⟩

end mulAdd

/-- A bound `a ^ n ≤ b ^ (n * Q / P + 1)` for every `n`, from one power
comparison `a ^ p ≤ b ^ q` at a fraction `q / p ≤ Q / P`: raised to the `p`-th
power, both sides compare as powers of `b`. -/
theorem pow_le_pow_of_pow_le {a b p q P Q : Nat} (hp : 0 < p) (hP : 0 < P) (hb : 0 < b)
    (hper : a ^ p ≤ b ^ q) (hfrac : q * P ≤ Q * p) (n : Nat) : a ^ n ≤ b ^ (n * Q / P + 1) := by
  have hfloor : n * Q < P * (n * Q / P + 1) := Nat.lt_mul_div_succ _ hP
  have hscaled : q * n * P < p * (n * Q / P + 1) * P :=
    calc q * n * P = q * P * n := by ring
      _ ≤ Q * p * n := Nat.mul_le_mul_right n hfrac
      _ = p * (n * Q) := by ring
      _ < p * (P * (n * Q / P + 1)) := Nat.mul_lt_mul_of_pos_left hfloor hp
      _ = p * (n * Q / P + 1) * P := by ring
  have hexp : q * n ≤ p * (n * Q / P + 1) := (Nat.lt_of_mul_lt_mul_right hscaled).le
  rw [← Nat.pow_le_pow_iff_left hp.ne']
  calc (a ^ n) ^ p = (a ^ p) ^ n := by rw [← pow_mul, ← pow_mul, Nat.mul_comm]
    _ ≤ (b ^ q) ^ n := Nat.pow_le_pow_left hper n
    _ = b ^ (q * n) := by rw [← pow_mul]
    _ ≤ b ^ (p * (n * Q / P + 1)) := Nat.pow_le_pow_right hb hexp
    _ = (b ^ (n * Q / P + 1)) ^ p := by rw [← pow_mul, Nat.mul_comm]

end Radix
