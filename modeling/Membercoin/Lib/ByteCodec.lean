import Mathlib

/-!
# Reading and writing byte streams

A reader takes a byte stream and returns what it read together with the rest
of the stream, or fails (`none`) at the end of the data or on a value it
rejects: `StateT (List UInt8) Option`. A writer is a list of bytes. Numbers are
written least significant byte first (`leBytes`, read back by `leValue`).

The round-trip lemmas have one shape: a reader applied to what the matching
writer wrote, followed by any rest, returns the value and that rest
(`readBytes_append`, `readMany_flatten`).
-/

namespace ByteCodec

/-- A reader of a byte stream. -/
abbrev Reader (β : Type) := StateT (List UInt8) Option β

/-- Read `k` bytes, failing at the end of the data. -/
def readBytes (k : Nat) : Reader (List UInt8) := fun s =>
  if k ≤ s.length then some (s.take k, s.drop k) else none

/-- Read `n` values one after another. -/
def readMany {β : Type} (read : Reader β) : Nat → Reader (List β)
  | 0 => pure []
  | n + 1 => do
    let x ← read
    let xs ← readMany read n
    pure (x :: xs)

/-- `n` in `w` bytes, least significant first. -/
def leBytes (n : Nat) : Nat → List UInt8
  | 0 => []
  | w + 1 => (n % 256).toUInt8 :: leBytes (n / 256) w

/-- The byte of an ASCII character. -/
def asciiByte (ch : Char) : UInt8 := ch.toNat.toUInt8

/-- The bytes of a string of ASCII characters. -/
def asciiBytes (s : String) : List UInt8 := s.toList.map asciiByte

/-- The value of bytes, least significant first. -/
def leValue : List UInt8 → Nat
  | [] => 0
  | b :: bs => b.toNat + 256 * leValue bs

section reader

variable {β γ : Type}

theorem bind_apply (x : Reader β) (f : β → Reader γ) (s : List UInt8) :
    (x >>= f) s = (x s).bind fun p => f p.1 p.2 := rfl

theorem pure_apply (b : β) (s : List UInt8) : (pure b : Reader β) s = some (b, s) := rfl

theorem failure_apply (s : List UInt8) : (failure : Reader β) s = none := rfl

theorem readBytes_append (l rest : List UInt8) : readBytes l.length (l ++ rest) = some (l, rest) := by
  simp [readBytes]

theorem readBytes_of_lt {k : Nat} {s : List UInt8} (h : s.length < k) : readBytes k s = none :=
  if_neg (by omega)

/-- What `readBytes` returns is a prefix of the stream, of the length asked for. -/
theorem readBytes_eq_some {k : Nat} {s l rest : List UInt8} (h : readBytes k s = some (l, rest)) :
    s = l ++ rest ∧ l.length = k := by
  unfold readBytes at h
  split_ifs at h with hk
  cases h
  exact ⟨(List.take_append_drop k s).symm, List.length_take_of_le hk⟩

/-- Reading many values back from what was written for each of them. -/
theorem readMany_flatten (write : β → List UInt8) {read : Reader β} (xs : List β)
    (hread : ∀ x ∈ xs, ∀ s, read (write x ++ s) = some (x, s)) (rest : List UInt8) :
    readMany read xs.length ((xs.map write).flatten ++ rest) = some (xs, rest) := by
  induction xs with
  | nil => rfl
  | cons x xs ih =>
    simp only [List.length_cons, readMany, List.map_cons, List.flatten_cons, List.append_assoc,
      bind_apply, hread x List.mem_cons_self, Option.bind_some,
      ih fun y hy => hread y (List.mem_cons_of_mem _ hy), pure_apply]

/-- A run of reads fails when one of the values does not read back and each
of the others either reads back or fails. -/
theorem readMany_flatten_eq_none (write : β → List UInt8) {read : Reader β} :
    ∀ (xs : List β), (∀ x ∈ xs, (∀ s, read (write x ++ s) = some (x, s)) ∨ ∀ s, read (write x ++ s) = none) →
      (∃ x ∈ xs, ∀ s, read (write x ++ s) = none) → ∀ rest : List UInt8,
      readMany read xs.length ((xs.map write).flatten ++ rest) = none
  | [], _, ⟨_, hx, _⟩, _ => absurd hx List.not_mem_nil
  | x :: xs, hread, ⟨y, hy, hyb⟩, rest => by
    simp only [List.length_cons, readMany, List.map_cons, List.flatten_cons, List.append_assoc, bind_apply]
    rcases hread x List.mem_cons_self with hok | hnone
    · rcases List.mem_cons.mp hy with rfl | hy
      · have := (hok ((xs.map write).flatten ++ rest)).symm.trans (hyb _)
        cases this
      · rw [hok, Option.bind_some,
          readMany_flatten_eq_none write xs (fun z hz => hread z (List.mem_cons_of_mem _ hz)) ⟨y, hy, hyb⟩ rest]
        rfl
    · rw [hnone, Option.bind_none]

end reader

section littleEndian

@[simp] theorem length_leBytes (n w : Nat) : (leBytes n w).length = w := by
  induction w generalizing n with
  | zero => rfl
  | succ w ih => simp [leBytes, ih]

theorem leValue_leBytes (n w : Nat) : leValue (leBytes n w) = n % 256 ^ w := by
  induction w generalizing n with
  | zero => simp [leBytes, leValue, Nat.mod_one]
  | succ w ih =>
    have hbyte : ((n % 256).toUInt8).toNat = n % 256 := by
      simp only [Nat.toUInt8_eq, UInt8.toNat_ofNat']
      omega
    rw [leBytes, leValue, ih, hbyte, Nat.pow_succ, Nat.mul_comm (256 ^ w) 256, Nat.mod_mul]

/-- Bytes are the encoding of their own value, at their own width. -/
theorem leBytes_leValue (bs : List UInt8) : leBytes (leValue bs) bs.length = bs := by
  induction bs with
  | nil => rfl
  | cons b bs ih =>
    have hb : b.toNat < 256 := b.toNat_lt
    have hlow : (b.toNat + 256 * leValue bs) % 256 = b.toNat := by omega
    have hhigh : (b.toNat + 256 * leValue bs) / 256 = leValue bs := by omega
    rw [List.length_cons, leBytes, leValue, hlow, hhigh, ih, Nat.toUInt8_eq, UInt8.ofNat_toNat]

theorem leValue_lt (bs : List UInt8) : leValue bs < 256 ^ bs.length := by
  induction bs with
  | nil => simp [leValue]
  | cons b bs ih =>
    have hb : b.toNat < 256 := b.toNat_lt
    simp only [leValue, List.length_cons, Nat.pow_succ]
    omega

end littleEndian

section frame

/-- A list as long as `a`, `m` more elements and `b`, that agrees with `a` at
the front and with `b` at the back, is `a`, its `m` middle elements and `b`:
what a check of fixed positions and a size says of a buffer. -/
theorem eq_append_of_getD {α : Type*} {l a b : List α} {m : Nat} (d : α)
    (hlen : l.length = a.length + m + b.length)
    (ha : ∀ i < a.length, l.getD i d = a.getD i d)
    (hb : ∀ i < b.length, l.getD (a.length + m + i) d = b.getD i d) :
    l = a ++ (l.drop a.length).take m ++ b := by
  apply List.ext_getElem
  · simp only [List.length_append, List.length_take, List.length_drop]
    omega
  · intro i h1 h2
    rw [← List.getD_eq_getElem l d h1, ← List.getD_eq_getElem _ d h2]
    by_cases hi : i < a.length
    · rw [List.getD_append _ _ _ _ (by simp; omega), List.getD_append _ _ _ _ hi, ha i hi]
    by_cases hm : i < a.length + m
    · rw [List.getD_append _ _ _ _ (by simp; omega), List.getD_append_right _ _ _ _ (by omega),
        List.getD_eq_getElem?_getD, List.getD_eq_getElem?_getD, List.getElem?_take_of_lt (by omega),
        List.getElem?_drop, Nat.add_sub_cancel' (by omega)]
    · have hb' := hb (i - (a.length + m)) (by simp at h2; omega)
      rw [Nat.add_sub_cancel' (by omega)] at hb'
      rw [hb', List.getD_append_right _ _ _ _ (by simp; omega)]
      congr 1
      simp only [List.length_append, List.length_take, List.length_drop]
      omega

end frame

end ByteCodec
