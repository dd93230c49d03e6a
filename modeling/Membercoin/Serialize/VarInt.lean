import Membercoin.Serialize.Stream

/-!
# VarInt (serialize.h)

`WriteVarInt` writes an unsigned integer in base 128, most significant digit
first, with the high bit set on every byte but the last; one is taken off every
digit but the last, so that each number has exactly one encoding. The number a
byte string `a[0 .. len-1]` stands for is the header's formula

    (a[len-1] & 0x7F) + sum(i=1..len-1, 128^i*((a[len-i-1] & 0x7F)+1))

which is `varIntValue`. The integer type `I` is a width `w` (32 for `unsigned
int`, 64 for `uint64_t`), and its arithmetic is modulo `2 ^ w`. The writer stores
its digits, least significant first, in a buffer `tmp` of `(w + 6) / 7` bytes and
writes them out in reverse; a store past the buffer is undefined (`none`). The
reader throws (`none`) at the end of the data and before any step that would
leave the range of `I`.

* `writeVarIntLoop_varIntValue`: the writer's loop stores exactly the bytes of
  an encoding when the buffer has room for them, and every number has an
  encoding (`exists_varIntValue_eq`) that fits when the number is below `2 ^ w`;
* `readVarIntLoop_append`: the reader returns the value of the encoding it
  meets when that value is below `2 ^ w`, and throws otherwise;
* `readVarIntLoop_eq_some`: what the reader accepts is an encoding.
-/

namespace Membercoin

open ByteCodec

section model

/-- The loop of `GetSizeOfVarInt`, counting in `nRet`. -/
def getSizeOfVarIntLoop (n nRet : Nat) : Nat :=
  let nRet := nRet + 1
  if n ≤ 0x7F then nRet else getSizeOfVarIntLoop ((n >>> 7) - 1) nRet
termination_by n
decreasing_by
  simp only [Nat.shiftRight_eq_div_pow]
  omega

/-- `GetSizeOfVarInt`: the number of bytes `WriteVarInt` writes. -/
def getSizeOfVarInt (n : Nat) : Nat := getSizeOfVarIntLoop n 0

/-- The loop of `WriteVarInt` from `tmp[len]`, with `room` bytes of `tmp` left:
the digit of `n` stored at `len`, then those of `(n >> 7) - 1` above it, until
`n` fits in seven bits. The digit at `len` carries the high bit unless `len` is
zero. A store with no room left is past the buffer. -/
def writeVarIntLoop (n len : Nat) : Nat → Option (List UInt8)
  | 0 => none
  | room + 1 =>
    let digit := ((n &&& 0x7F) ||| (if len ≠ 0 then 0x80 else 0x00)).toUInt8
    if n ≤ 0x7F then some [digit]
    else (writeVarIntLoop ((n >>> 7) - 1) (len + 1) room).map (digit :: ·)

/-- `WriteVarInt` for an integer type of `w` bits: `tmp` holds
`(sizeof(n) * 8 + 6) / 7` bytes, written out from `tmp[len]` down to `tmp[0]`. -/
def writeVarInt (w n : Nat) : Option (List UInt8) :=
  (writeVarIntLoop n 0 ((w + 6) / 7)).map List.reverse

/-- The loop of `ReadVarInt` for an integer type of `w` bits, from the value `n`
read so far. -/
def readVarIntLoop (w n : Nat) : List UInt8 → Option (Nat × List UInt8)
  | [] => none
  | chData :: s =>
    if n > (2 ^ w - 1) >>> 7 then none
    else
      let n := (n <<< 7) % 2 ^ w ||| (chData.toNat &&& 0x7F)
      if chData.toNat &&& 0x80 ≠ 0 then
        if n = 2 ^ w - 1 then none else readVarIntLoop w ((n + 1) % 2 ^ w) s
      else some (n, s)

/-- `ReadVarInt` for an integer type of `w` bits. -/
def readVarInt (w : Nat) : Reader Nat := fun s => readVarIntLoop w 0 s

example : writeVarInt 64 255 = some [0x80, 0x7F] := by decide

example : readVarInt 32 [0x82, 0xFE, 0x7F] = some (65535, []) := by decide

example : writeVarInt 64 (2 ^ 32) = some [0x8E, 0xFE, 0xFE, 0xFF, 0x00] := by decide

end model

section spec

/-- The number a VarInt stands for, the formula of serialize.h: every byte
before the last carries its low seven bits plus one, most significant first. -/
def varIntValue : List UInt8 → UInt8 → Nat
  | [], last => last.toNat % 128
  | d :: init, last => 128 ^ (init.length + 1) * (d.toNat % 128 + 1) + varIntValue init last

/-- A VarInt: the high bit on every byte but the last. -/
def IsVarInt (init : List UInt8) (last : UInt8) : Prop :=
  (∀ d ∈ init, 128 ≤ d.toNat) ∧ last.toNat < 128

/-- The value seen from its least significant digit, the order the writer
produces the digits in. -/
theorem varIntValue_append_singleton (init : List UInt8) (d last : UInt8) :
    varIntValue (init ++ [d]) last = 128 * (varIntValue init d + 1) + last.toNat % 128 := by
  induction init with
  | nil => simp [varIntValue]
  | cons a init ih =>
    simp only [List.cons_append, varIntValue, List.length_append, List.length_singleton, ih,
      Nat.pow_succ]
    ring

/-- An encoding with `k + 1` bytes stands for at least `128 ^ k`. -/
theorem pow_length_le_varIntValue {init : List UInt8} (h : init ≠ []) (last : UInt8) :
    128 ^ init.length ≤ varIntValue init last := by
  obtain ⟨d, init, rfl⟩ := List.exists_cons_of_ne_nil h
  calc 128 ^ (init.length + 1) ≤ 128 ^ (init.length + 1) * (d.toNat % 128 + 1) :=
        Nat.le_mul_of_pos_right _ (Nat.succ_pos _)
    _ ≤ varIntValue (d :: init) last := Nat.le_add_right _ _

/-- Below `2 ^ w` an encoding fits in the `(w + 6) / 7` bytes of `tmp`. -/
theorem length_lt_of_varIntValue_lt {w : Nat} (hw : 7 ≤ w) {init : List UInt8} {last : UInt8}
    (h : varIntValue init last < 2 ^ w) : init.length + 1 ≤ (w + 6) / 7 := by
  by_cases hne : init = []
  · simp only [hne, List.length_nil]
    omega
  · have hpow : 2 ^ (7 * init.length) < 2 ^ w := by
      calc 2 ^ (7 * init.length) = 128 ^ init.length := by rw [Nat.pow_mul]
        _ ≤ varIntValue init last := pow_length_le_varIntValue hne last
        _ < 2 ^ w := h
    have := (Nat.pow_lt_pow_iff_right (by decide : 1 < 2)).mp hpow
    omega

/-- Every number has an encoding, least significant digit first, whose first
digit carries the high bit exactly when asked. -/
theorem exists_varIntValue_eq (n : Nat) (hb : Bool) :
    ∃ (last : UInt8) (tail : List UInt8), (128 ≤ last.toNat ↔ hb = true) ∧
      (∀ d ∈ tail, 128 ≤ d.toNat) ∧ varIntValue tail.reverse last = n := by
  induction n using Nat.strongRecOn generalizing hb with
  | ind n ih =>
    let last : UInt8 := (n % 128 + if hb then 128 else 0).toUInt8
    have hlast : last.toNat = n % 128 + if hb then 128 else 0 := by
      simp only [last, Nat.toUInt8_eq, UInt8.toNat_ofNat']
      split <;> omega
    have hhigh : 128 ≤ last.toNat ↔ hb = true := by
      rw [hlast]
      cases hb
      · simp only [Bool.false_eq_true, ↓reduceIte, iff_false]
        omega
      · simp only [↓reduceIte, iff_true]
        omega
    have hlow : last.toNat % 128 = n % 128 := by
      rw [hlast]
      split <;> omega
    by_cases hn : n ≤ 0x7F
    · refine ⟨last, [], hhigh, by simp, ?_⟩
      rw [List.reverse_nil, varIntValue, hlow]
      omega
    · obtain ⟨d, tail, hd, htail, hval⟩ := ih (n / 128 - 1) (by omega) true
      refine ⟨last, d :: tail, hhigh, ?_, ?_⟩
      · intro x hx
        rcases List.mem_cons.mp hx with rfl | hx
        · exact hd.mpr rfl
        · exact htail x hx
      · rw [List.reverse_cons, varIntValue_append_singleton, hval, hlow]
        omega

end spec

section bits

/-- The high bit of a byte. -/
theorem and_0x80_eq_zero_iff {b : Nat} (hb : b < 256) : b &&& 0x80 = 0 ↔ b < 128 := by
  have h128 : (0x80 : Nat) = 2 ^ 7 := rfl
  rw [h128]
  constructor
  · intro h
    by_contra hge
    have hbit : b.testBit 7 = true := by
      have hsplit := Nat.testBit_two_pow_add_eq (b - 128) 7
      rw [show 2 ^ 7 + (b - 128) = b by omega,
        Nat.testBit_lt_two_pow (show b - 128 < 2 ^ 7 by omega)] at hsplit
      simpa using hsplit
    have hk := congrArg (fun y => y.testBit 7) h
    rw [Nat.testBit_and, hbit, Nat.testBit_two_pow_self, Nat.zero_testBit] at hk
    cases hk
  · intro h
    apply Nat.eq_of_testBit_eq
    intro j
    rw [Nat.testBit_and, Nat.testBit_two_pow, Nat.zero_testBit]
    by_cases hj : 7 = j
    · subst hj
      simp [Nat.testBit_lt_two_pow (show b < 2 ^ 7 by omega)]
    · simp [hj]

/-- The byte the writer stores: the low seven bits of `n`, and the high bit
unless the digit is the least significant one. -/
theorem writeDigit_eq {n len : Nat} {last : UInt8} (hn : n % 128 = last.toNat % 128)
    (hflag : 128 ≤ last.toNat ↔ len ≠ 0) :
    ((n &&& 0x7F) ||| (if len ≠ 0 then 0x80 else 0x00)).toUInt8 = last := by
  have hlow : n &&& 0x7F = n % 2 ^ 7 := Nat.and_two_pow_sub_one_eq_mod n 7
  have hlt : last.toNat < 256 := last.toNat_lt
  apply UInt8.toNat_inj.mp
  rw [hlow, Nat.toUInt8_eq, UInt8.toNat_ofNat']
  by_cases hlen : len ≠ 0
  · rw [if_pos hlen, show (0x80 : Nat) = 2 ^ 7 from rfl,
      Nat.or_two_pow_eq_add_of_lt (Nat.mod_lt _ (by decide))]
    have := hflag.mpr hlen
    omega
  · rw [if_neg hlen, Nat.or_zero]
    have : last.toNat < 128 := by
      by_contra h
      exact hlen (hflag.mp (by omega))
    omega

/-- The reader's guard `n > max >> 7` holds exactly when shifting `n` up by
seven bits leaves the range of `I`. -/
theorem readGuard_iff {w n : Nat} : n > (2 ^ w - 1) >>> 7 ↔ 2 ^ w ≤ n * 128 := by
  have hpos : 0 < 2 ^ w := Nat.two_pow_pos w
  rw [Nat.shiftRight_eq_div_pow]
  generalize 2 ^ w = P at *
  omega

/-- One step of the reader, when the guard before it holds: the value so far
shifted up by seven bits, with the low bits of the byte below. -/
theorem readStep_eq {w n : Nat} (hw : 7 ≤ w) (hguard : ¬n > (2 ^ w - 1) >>> 7) (chData : UInt8) :
    (n <<< 7) % 2 ^ w ||| (chData.toNat &&& 0x7F) = n * 128 + chData.toNat % 128 ∧
      n * 128 + 127 < 2 ^ w := by
  have hfit : n * 128 + 127 < 2 ^ w := by
    have hlt := mt readGuard_iff.2 hguard
    obtain ⟨k, hk⟩ : 128 ∣ 2 ^ w := Nat.pow_dvd_pow 2 hw
    rw [hk] at hlt ⊢
    omega
  have hshift : (n <<< 7) % 2 ^ w = n <<< 7 := by
    rw [Nat.shiftLeft_eq]
    exact Nat.mod_eq_of_lt (by omega)
  have hlow : chData.toNat &&& 0x7F = chData.toNat % 2 ^ 7 :=
    Nat.and_two_pow_sub_one_eq_mod _ 7
  refine ⟨?_, hfit⟩
  rw [hshift, hlow, ← Nat.shiftLeft_add_eq_or_of_lt (Nat.mod_lt _ (by decide)), Nat.shiftLeft_eq]

end bits

section writer

/-- The writer's loop stores, least significant first, the bytes of an
encoding of the number, given room for all of them. The induction is on the
digits above the first; each step stores one and shifts the number down. -/
theorem writeVarIntLoop_varIntValue :
    ∀ (tail : List UInt8) (last : UInt8) (len room : Nat), (128 ≤ last.toNat ↔ len ≠ 0) →
      (∀ d ∈ tail, 128 ≤ d.toNat) → tail.length + 1 ≤ room →
      writeVarIntLoop (varIntValue tail.reverse last) len room = some (last :: tail)
  | [], last, len, room + 1, hflag, _, _ => by
    have hsmall : last.toNat % 128 ≤ 0x7F := by omega
    simp only [List.reverse_nil, varIntValue, writeVarIntLoop, if_pos hsmall,
      writeDigit_eq (Nat.mod_mod _ _) hflag]
  | d :: tail, last, len, room + 1, hflag, htail, hroom => by
    have hval := varIntValue_append_singleton tail.reverse d last
    rw [← List.reverse_cons] at hval
    have hlow : varIntValue (d :: tail).reverse last % 128 = last.toNat % 128 := by omega
    have hnext : (varIntValue (d :: tail).reverse last >>> 7) - 1 = varIntValue tail.reverse d := by
      rw [Nat.shiftRight_eq_div_pow]
      omega
    have hd : 128 ≤ d.toNat := htail d List.mem_cons_self
    have ih := writeVarIntLoop_varIntValue tail d (len + 1) room
      (iff_of_true hd (Nat.succ_ne_zero len)) (fun x hx => htail x (List.mem_cons_of_mem _ hx))
      (by simp only [List.length_cons] at hroom; omega)
    simp only [writeVarIntLoop, if_neg (show ¬varIntValue (d :: tail).reverse last ≤ 0x7F by omega),
      hnext, ih, writeDigit_eq hlow hflag, Option.map_some]
  | _, _, _, 0, _, _, hroom => absurd hroom (by omega)

/-- `GetSizeOfVarInt` counts the bytes of the encoding. -/
theorem getSizeOfVarIntLoop_varIntValue :
    ∀ (tail : List UInt8) (last : UInt8) (nRet : Nat),
      getSizeOfVarIntLoop (varIntValue tail.reverse last) nRet = nRet + tail.length + 1
  | [], last, nRet => by
    rw [getSizeOfVarIntLoop]
    simp only [List.reverse_nil, varIntValue, List.length_nil]
    rw [if_pos (by omega)]
  | d :: tail, last, nRet => by
    have hval := varIntValue_append_singleton tail.reverse d last
    rw [← List.reverse_cons] at hval
    have hnext : (varIntValue (d :: tail).reverse last >>> 7) - 1 = varIntValue tail.reverse d := by
      rw [Nat.shiftRight_eq_div_pow]
      omega
    rw [getSizeOfVarIntLoop]
    simp only [if_neg (show ¬varIntValue (d :: tail).reverse last ≤ 0x7F by omega), hnext,
      getSizeOfVarIntLoop_varIntValue tail d, List.length_cons]
    omega

/-- A number below `2 ^ w` is written as the encoding of its value, and
`GetSizeOfVarInt` is its length: the buffer is never overrun. -/
theorem writeVarInt_eq_some {w n : Nat} (hw : 7 ≤ w) (hn : n < 2 ^ w) :
    ∃ (init : List UInt8) (last : UInt8), IsVarInt init last ∧ varIntValue init last = n ∧
      writeVarInt w n = some (init ++ [last]) ∧ getSizeOfVarInt n = init.length + 1 := by
  obtain ⟨last, tail, hlast, htail, hval⟩ := exists_varIntValue_eq n false
  have hroom : tail.length + 1 ≤ (w + 6) / 7 := by
    have := length_lt_of_varIntValue_lt hw (hval ▸ hn)
    rwa [List.length_reverse] at this
  have hflag : 128 ≤ last.toNat ↔ 0 ≠ 0 := by simpa using hlast
  refine ⟨tail.reverse, last, ⟨fun d hd => htail d (List.mem_reverse.mp hd), ?_⟩, hval, ?_, ?_⟩
  · by_contra h
    exact absurd (hflag.mp (by omega)) (by decide)
  · rw [writeVarInt, ← hval, writeVarIntLoop_varIntValue tail last 0 _ hflag htail hroom]
    simp
  · rw [getSizeOfVarInt, ← hval, getSizeOfVarIntLoop_varIntValue, List.length_reverse]
    omega

/-- An encoding of a value below `2 ^ w` is what the writer writes for it. -/
theorem writeVarInt_varIntValue {w : Nat} (hw : 7 ≤ w) {init : List UInt8} {last : UInt8}
    (hv : IsVarInt init last) (hlt : varIntValue init last < 2 ^ w) :
    writeVarInt w (varIntValue init last) = some (init ++ [last]) := by
  have hroom := length_lt_of_varIntValue_lt hw hlt
  have hflag : 128 ≤ last.toNat ↔ 0 ≠ 0 := iff_of_false (by have := hv.2; omega) (by decide)
  have hloop := writeVarIntLoop_varIntValue init.reverse last 0 ((w + 6) / 7) hflag
    (fun d hd => hv.1 d (List.mem_reverse.mp hd)) (by rwa [List.length_reverse])
  rw [List.reverse_reverse] at hloop
  rw [writeVarInt, hloop]
  simp

end writer

section reader

variable {w : Nat}

/-- The reader stops at the first byte without the high bit: what it accepts is
an encoding followed by the rest. -/
theorem readVarIntLoop_eq_some :
    ∀ (s : List UInt8) (n m : Nat) (rest : List UInt8), readVarIntLoop w n s = some (m, rest) →
      ∃ (init : List UInt8) (last : UInt8), IsVarInt init last ∧ s = init ++ last :: rest
  | [], _, _, _, h => by cases h
  | chData :: s, n, m, rest, h => by
    simp only [readVarIntLoop] at h
    split_ifs at h with hguard hhigh hmax
    · obtain ⟨init, last, hv, rfl⟩ := readVarIntLoop_eq_some s _ m rest h
      have hch : 128 ≤ chData.toNat := by
        by_contra hlt
        exact hhigh ((and_0x80_eq_zero_iff chData.toNat_lt).mpr (by omega))
      refine ⟨chData :: init, last, ⟨fun x hx => ?_, hv.2⟩, rfl⟩
      rcases List.mem_cons.mp hx with rfl | hx
      · exact hch
      · exact hv.1 x hx
    · cases h
      refine ⟨[], chData, ⟨by simp, ?_⟩, rfl⟩
      exact (and_0x80_eq_zero_iff chData.toNat_lt).mp (by simpa using hhigh)

variable (hw : 7 ≤ w)
include hw

/-- The reader on an encoding, from the value `n` read so far: it returns the
value of the encoding on top of `n` when that stays below `2 ^ w`, and
throws otherwise. The induction is on the bytes before the last; the two
guards of each step fire exactly when the final value would not fit. -/
theorem readVarIntLoop_append :
    ∀ (init : List UInt8) (last : UInt8) (n : Nat) (rest : List UInt8), IsVarInt init last →
      readVarIntLoop w n (init ++ last :: rest) =
        if n * 128 ^ (init.length + 1) + varIntValue init last < 2 ^ w then
          some (n * 128 ^ (init.length + 1) + varIntValue init last, rest)
        else none
  | [], last, n, rest, hv => by
    have hlast : last.toNat &&& 0x80 = 0 := (and_0x80_eq_zero_iff last.toNat_lt).mpr hv.2
    simp only [List.nil_append, readVarIntLoop, List.length_nil, Nat.zero_add, Nat.pow_one,
      varIntValue]
    by_cases hguard : n > (2 ^ w - 1) >>> 7
    · rw [if_pos hguard, if_neg]
      have := readGuard_iff.1 hguard
      omega
    · obtain ⟨hstep, hfit⟩ := readStep_eq hw hguard last
      rw [if_neg hguard, hstep, if_neg (by rw [hlast]; decide), if_pos (by omega)]
  | d :: init, last, n, rest, hv => by
    have hd : d.toNat &&& 0x80 ≠ 0 := fun h =>
      absurd ((and_0x80_eq_zero_iff d.toNat_lt).mp h) (by have := hv.1 d List.mem_cons_self; omega)
    have ih := readVarIntLoop_append init last (n * 128 + d.toNat % 128 + 1) rest
      ⟨fun x hx => hv.1 x (List.mem_cons_of_mem _ hx), hv.2⟩
    have hV : n * 128 ^ ((d :: init).length + 1) + varIntValue (d :: init) last =
        (n * 128 + d.toNat % 128 + 1) * 128 ^ (init.length + 1) + varIntValue init last := by
      simp only [List.length_cons, varIntValue, Nat.pow_succ]
      ring
    have hP : 1 ≤ 128 ^ (init.length + 1) := Nat.one_le_pow _ _ (by decide)
    simp only [List.cons_append, readVarIntLoop]
    rw [hV]
    by_cases hguard : n > (2 ^ w - 1) >>> 7
    · rw [if_pos hguard, if_neg]
      have : 2 ^ w ≤ (n * 128 + d.toNat % 128 + 1) * 128 ^ (init.length + 1) :=
        calc 2 ^ w ≤ n * 128 + d.toNat % 128 + 1 := by have := readGuard_iff.1 hguard; omega
          _ ≤ _ := Nat.le_mul_of_pos_right _ hP
      omega
    · obtain ⟨hstep, hfit⟩ := readStep_eq hw hguard d
      rw [if_neg hguard, hstep, if_pos hd]
      by_cases hmax : n * 128 + d.toNat % 128 = 2 ^ w - 1
      · rw [if_pos hmax, if_neg]
        have : 2 ^ w ≤ (n * 128 + d.toNat % 128 + 1) * 128 ^ (init.length + 1) :=
          calc 2 ^ w ≤ n * 128 + d.toNat % 128 + 1 := by omega
            _ ≤ _ := Nat.le_mul_of_pos_right _ hP
        omega
      · rw [if_neg hmax, Nat.mod_eq_of_lt (by omega), ih]

/-- The reader returns the value of the encoding it meets when it fits in `w` bits. -/
theorem readVarInt_append (init : List UInt8) (last : UInt8) (rest : List UInt8) (hv : IsVarInt init last) :
    readVarInt w (init ++ last :: rest) =
      if varIntValue init last < 2 ^ w then some (varIntValue init last, rest) else none := by
  have h := readVarIntLoop_append hw init last 0 rest hv
  rwa [Nat.zero_mul, Nat.zero_add] at h

/-- A number in range is written in `GetSizeOfVarInt` bytes that read back. -/
theorem readVarInt_writeVarInt {n : Nat} (hn : n < 2 ^ w) :
    ∃ bs, writeVarInt w n = some bs ∧ bs.length = getSizeOfVarInt n ∧
      ∀ rest, readVarInt w (bs ++ rest) = some (n, rest) := by
  obtain ⟨init, last, hv, hval, hwrite, hsize⟩ := writeVarInt_eq_some hw hn
  refine ⟨init ++ [last], hwrite, by rw [hsize, List.length_append, List.length_singleton],
    fun rest => ?_⟩
  rw [List.append_assoc, List.singleton_append, readVarInt_append hw init last rest hv, hval, if_pos hn]

/-- A byte below `0x80` is a whole VarInt, read as itself. -/
theorem readVarInt_cons_of_lt {b : UInt8} (hb : b.toNat < 128) (rest : List UInt8) :
    readVarInt w (b :: rest) = some (b.toNat, rest) := by
  have hlt : b.toNat < 2 ^ w :=
    lt_of_lt_of_le hb (le_trans (by decide) (Nat.pow_le_pow_right (by decide) hw))
  have h := readVarInt_append hw [] b rest ⟨by simp, hb⟩
  rwa [varIntValue, Nat.mod_eq_of_lt hb, if_pos hlt, List.nil_append] at h

end reader

/-- VarInt is a bijective code on the integers of `w` bits, for every width of
at least seven bits (`unsigned int` and `uint64_t` among them): every number in
range is written without overrunning `tmp`, in `GetSizeOfVarInt` bytes, and
reads back; whatever the reader accepts is what the writer writes for the
number read; and an encoding of a value out of range is rejected, never wrapped. -/
theorem varInt_bijective_code (w : Nat) (hw : 7 ≤ w) :
    (∀ n : Nat, n < 2 ^ w → ∃ bs, writeVarInt w n = some bs ∧ bs.length = getSizeOfVarInt n ∧
        ∀ rest, readVarInt w (bs ++ rest) = some (n, rest)) ∧
    (∀ (s rest : List UInt8) (n : Nat), readVarInt w s = some (n, rest) →
        n < 2 ^ w ∧ ∃ bs, writeVarInt w n = some bs ∧ s = bs ++ rest) ∧
    ∀ (init : List UInt8) (last : UInt8) (rest : List UInt8), IsVarInt init last →
      2 ^ w ≤ varIntValue init last → readVarInt w (init ++ last :: rest) = none := by
  refine ⟨fun n hn => readVarInt_writeVarInt hw hn, fun s rest n h => ?_, fun init last rest hv hbig => ?_⟩
  · obtain ⟨init, last, hv, rfl⟩ := readVarIntLoop_eq_some s 0 n rest h
    rw [readVarInt_append hw init last rest hv] at h
    split_ifs at h with hlt
    cases h
    exact ⟨hlt, init ++ [last], writeVarInt_varIntValue hw hv hlt, by simp⟩
  · rw [readVarInt_append hw init last rest hv, if_neg (by omega)]

theorem varInt_bijective_code_uint32 :
    ∃ bs, writeVarInt 32 16511 = some bs ∧ bs.length = getSizeOfVarInt 16511 ∧
      ∀ rest, readVarInt 32 (bs ++ rest) = some (16511, rest) :=
  (varInt_bijective_code 32 (by decide)).1 16511 (by decide)

end Membercoin
