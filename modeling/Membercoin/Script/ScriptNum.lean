import Membercoin.Script.Opcodes

/-!
# Script numbers (`CScriptNum`)

Numeric opcodes read their operands as little-endian sign-magnitude byte
strings, compute on an `int64_t`, and push the result back in the same
encoding. The C++ class keeps the `int64_t` in `m_value`; here the value is
an integer that carries its `int64_t` range as a field, so that a value
outside that range cannot be built. Arithmetic that the source guards with
an `assert`, and arithmetic whose overflow is undefined in C++, returns a
`Fault` instead of a wrapped value.

The encoding functions are `set_vch` (decode), `serialize` (encode),
`IsMinimallyEncoded` and `MinimallyEncode` of `script/script.h` and
`script/script.cpp`.
-/

namespace Membercoin

/-- `std::numeric_limits<int64_t>::min()`. -/
def int64Min : Int := -2 ^ 63

/-- `std::numeric_limits<int64_t>::max()`. -/
def int64Max : Int := 2 ^ 63 - 1

/-- An integer that fits an `int64_t`. -/
def IsInt64 (v : Int) : Prop := int64Min ≤ v ∧ v ≤ int64Max

instance (v : Int) : Decidable (IsInt64 v) :=
  inferInstanceAs (Decidable (_ ∧ _))

/-- A script number: the `int64_t` held by a `CScriptNum`. -/
structure CScriptNum where
  value : Int
  isInt64 : IsInt64 value

namespace CScriptNum

/-- Numeric operands are at most four bytes long by default. -/
def maximumElementSize : Nat := 4

/-- Store an `int64_t` computed by C++ arithmetic: a result outside the range
is signed overflow, which is undefined behaviour. -/
def ofInt (v : Int) : Except Fault CScriptNum :=
  if h : IsInt64 v then pure ⟨v, h⟩ else throw .undefinedBehavior

/-- The value of a little-endian byte string: `set_vch` ORs byte `i` in at
bit `8 * i`, which on bytes is the base-256 value. -/
def littleEndianValue (vch : List UInt8) : Nat :=
  Nat.ofDigits 256 (vch.map UInt8.toNat)

/-- `CScriptNum::set_vch`: the sign is the top bit of the last byte, the
magnitude the rest. -/
def setVch (vch : List UInt8) : Int :=
  if vch = [] then 0
  else
    let result := littleEndianValue vch
    if vch.getLast! &&& 0x80 ≠ 0 then
      -((result - 0x80 * 256 ^ (vch.length - 1) : Nat) : Int)
    else result

/-- `CScriptNum::IsMinimallyEncoded`. -/
def isMinimallyEncoded (vch : List UInt8) (nMaxNumSize : Nat) : Bool :=
  if vch.length > nMaxNumSize then false
  else if vch.length > 0 ∧ vch.getLast! &&& 0x7f = 0 then
    -- a zero top byte is allowed only to carry a sign bit that the next
    -- byte down cannot hold
    !(vch.length ≤ 1 ∨ vch[vch.length - 2]! &&& 0x80 = 0)
  else true

theorem isMinimallyEncoded_length_le {vch : List UInt8} {nMaxNumSize : Nat}
    (h : isMinimallyEncoded vch nMaxNumSize = true) : vch.length ≤ nMaxNumSize := by
  unfold isMinimallyEncoded at h
  split_ifs at h with hlen
  all_goals omega

/-- The trimming loop of `MinimallyEncode`: the argument is the C++ loop
index `i`, which tests `data[i - 1]` on the way down. -/
def minimallyEncodeTrim (data : List UInt8) (last : UInt8) : Nat → List UInt8
  | 0 => []
  | i + 1 =>
    if data[i]! ≠ 0 then
      if data[i]! &&& 0x80 ≠ 0 then data.take (i + 1) ++ [last]
      else data.take i ++ [data[i]! ||| last]
    else minimallyEncodeTrim data last i

/-- `CScriptNum::MinimallyEncode`: the flag says whether `data` changed, the
list is `data` after the call. -/
def minimallyEncode (data : List UInt8) : Bool × List UInt8 :=
  match data.getLast? with
  | none => (false, data)
  | some last =>
    if last &&& 0x7f ≠ 0 then (false, data)
    else if data.length = 1 then (true, [])
    else if data[data.length - 2]! &&& 0x80 ≠ 0 then (false, data)
    else (true, minimallyEncodeTrim data last (data.length - 1))

/-- `CScriptNum::serialize`: the magnitude in little-endian bytes (the
`while (absvalue)` loop is `Nat.digits 256`), then a sign bit in the top
byte, or a new top byte when the top bit is taken. -/
def serialize (value : Int) : List UInt8 :=
  if value = 0 then []
  else
    let neg := decide (value < 0)
    let result := (Nat.digits 256 value.natAbs).map Nat.toUInt8
    let last := result.getLast!
    if last &&& 0x80 ≠ 0 then result ++ [if neg then 0x80 else 0]
    else if neg then result.dropLast ++ [last ||| 0x80]
    else result

/-- `serialize` writes the base-256 digits of the magnitude and at most one
byte more. -/
theorem serialize_length_le (value : Int) :
    (serialize value).length ≤ (Nat.digits 256 value.natAbs).length + 1 := by
  unfold serialize
  dsimp only
  split_ifs <;> simp

theorem serialize_length_le_of_natAbs_lt {value : Int} {k : Nat} (h : value.natAbs < 256 ^ k) :
    (serialize value).length ≤ k + 1 := by
  have hdigits := (Nat.digits_length_le_iff (by decide) _).mpr h
  have := serialize_length_le value
  omega

/-- `CScriptNum(vch, fRequireMinimal, nMaxNumSize)`: an operand longer than
`nMaxNumSize`, or not minimal when minimality is required, throws a
`scriptnum_error` that `Step` turns into its error code. -/
def ofVch (vch : List UInt8) (fRequireMinimal : Bool) (nMaxNumSize : Nat) :
    Except Fault CScriptNum :=
  if vch.length > nMaxNumSize then throw (.scriptError .numberOverflow)
  else if fRequireMinimal ∧ !isMinimallyEncoded vch nMaxNumSize then
    throw (.scriptError .numberBadEncoding)
  else ofInt (setVch vch)

/-- `CScriptNum(size)` for a `size_t` (`OP_SIZE`, `OP_DEPTH`): the conversion
to `int64_t` is modulo `2^64`, so sizes from `2^63` on would turn negative. -/
def ofSizeT (n : Nat) : CScriptNum :=
  ⟨if n % 2 ^ 64 < 2 ^ 63 then ((n % 2 ^ 64 : Nat) : Int) else ((n % 2 ^ 64 : Nat) : Int) - 2 ^ 64,
    by
      have hlt : n % 2 ^ 64 < 2 ^ 64 := Nat.mod_lt n (by decide)
      unfold IsInt64 int64Min int64Max
      split_ifs <;> omega⟩

/-- `getvch`. -/
def getvch (n : CScriptNum) : List UInt8 := serialize n.value

/-- An `int64_t` serializes to at most nine bytes. -/
theorem getvch_length_le (n : CScriptNum) : n.getvch.length ≤ 9 := by
  have hrange := n.isInt64
  unfold IsInt64 int64Min int64Max at hrange
  have habs : n.value.natAbs < 256 ^ 8 := by omega
  exact serialize_length_le_of_natAbs_lt habs

/-- `getint`: the value clamped to the range of `int`. -/
def getint (n : CScriptNum) : Int :=
  if n.value > 2147483647 then 2147483647
  else if n.value < -2147483648 then -2147483648
  else n.value

/-- `operator+=(int64_t)`, guarded by an `assert` against overflow. -/
def addAssign (a : CScriptNum) (rhs : Int) : Except Fault CScriptNum :=
  if rhs = 0 ∨ (rhs > 0 ∧ a.value ≤ int64Max - rhs) ∨
      (rhs < 0 ∧ a.value ≥ int64Min - rhs) then
    ofInt (a.value + rhs)
  else throw .assertFailure

/-- `operator-=(int64_t)`, guarded by an `assert` against overflow. -/
def subAssign (a : CScriptNum) (rhs : Int) : Except Fault CScriptNum :=
  if rhs = 0 ∨ (rhs > 0 ∧ a.value ≥ int64Min + rhs) ∨
      (rhs < 0 ∧ a.value ≤ int64Max + rhs) then
    ofInt (a.value - rhs)
  else throw .assertFailure

/-- Unary `operator-`, guarded by an `assert` against negating the minimum. -/
def neg (a : CScriptNum) : Except Fault CScriptNum :=
  if a.value ≠ int64Min then ofInt (-a.value) else throw .assertFailure

/-- Binary `operator+`: no guard, so overflow is undefined. -/
def add (a b : CScriptNum) : Except Fault CScriptNum := ofInt (a.value + b.value)

/-- Binary `operator-`: no guard, so overflow is undefined. -/
def sub (a b : CScriptNum) : Except Fault CScriptNum := ofInt (a.value - b.value)

/-- `operator/`: C++ integer division truncates toward zero; dividing by
zero, or the minimum by `-1`, is undefined. -/
def div (a b : CScriptNum) : Except Fault CScriptNum :=
  if b.value = 0 then throw .undefinedBehavior else ofInt (a.value.tdiv b.value)

/-- `operator%`: the C++ remainder takes the sign of the dividend. -/
def mod (a b : CScriptNum) : Except Fault CScriptNum :=
  if b.value = 0 then throw .undefinedBehavior else ofInt (a.value.tmod b.value)

/-- Assigning a `bool` to a script number (`bn = (bn1 < bn2)` and the like). -/
def ofBool (b : Bool) : CScriptNum :=
  ⟨if b then 1 else 0, by cases b <;> decide⟩

end CScriptNum

end Membercoin
