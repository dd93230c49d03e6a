import Membercoin.Script.ScriptNum

/-!
# Reading and writing scripts

A script is its byte string, and an iterator into it is the part of the
script it has not passed yet, so that `CScript(pbegincodehash, pend)` is
simply the remaining bytes at the code separator.

* `getOp2` is `CScript::GetOp2`: one opcode with its push data.
* `parseScript` applies it until the script is used up, the notion of a
  script that parses completely.
* `serializeVector`, `pushVector` are the two `CScript` push writers, and
  `findAndDelete` is `CScript::FindAndDelete`, which the signature opcodes use
  to cut the signature out of the code they sign.
* `checkMinimalPush` is the `SCRIPT_VERIFY_MINIMALDATA` rule for pushes.
-/

namespace Membercoin

open CScriptNum

/-- The operand length of a push opcode, read from the bytes after the
opcode (`ReadLE16`, `ReadLE32`), and the bytes after that length. -/
def pushDataSize (opcode : UInt8) (rest : List UInt8) : Option (Nat × List UInt8) :=
  if opcode < opPushData1 then some (opcode.toNat, rest)
  else if opcode = opPushData1 then
    match rest with
    | b :: r => some (b.toNat, r)
    | [] => none
  else if opcode = opPushData2 then
    if rest.length < 2 then none else some (littleEndianValue (rest.take 2), rest.drop 2)
  else if rest.length < 4 then none
  else some (littleEndianValue (rest.take 4), rest.drop 4)

/-- `CScript::GetOp2` at the iterator `pc`: `none` is a `false` return, and
otherwise the opcode, its push data and the iterator after the operation. -/
def getOp2 : List UInt8 → Option (UInt8 × List UInt8 × List UInt8)
  | [] => none
  | opcode :: rest =>
    if opcode ≤ opPushData4 then
      match pushDataSize opcode rest with
      | none => none
      | some (nSize, data) =>
        if data.length < nSize then none
        else some (opcode, data.take nSize, data.drop nSize)
    else some (opcode, [], rest)

theorem pushDataSize_length_le {opcode : UInt8} {rest data : List UInt8} {n : Nat}
    (h : pushDataSize opcode rest = some (n, data)) : data.length ≤ rest.length := by
  unfold pushDataSize at h
  split_ifs at h
  · cases h
    rfl
  · split at h
    · cases h
      simp
    · cases h
  · cases h
    simp
  · cases h
    simp

/-- Every operation read consumes at least its opcode byte. -/
theorem getOp2_length_lt {pc pc' data : List UInt8} {opcode : UInt8}
    (h : getOp2 pc = some (opcode, data, pc')) : pc'.length < pc.length := by
  cases pc with
  | nil => simp [getOp2] at h
  | cons b rest =>
    simp only [getOp2] at h
    split_ifs at h
    · split at h
      · cases h
      · rename_i n d hsize
        have hle := pushDataSize_length_le hsize
        split_ifs at h
        cases h
        simp
        omega
    · cases h
      simp

/-- The push data of an operation is at most as long as the script. -/
theorem getOp2_data_length_le {pc pc' data : List UInt8} {opcode : UInt8}
    (h : getOp2 pc = some (opcode, data, pc')) : data.length ≤ pc.length := by
  cases pc with
  | nil => simp [getOp2] at h
  | cons b rest =>
    simp only [getOp2] at h
    split_ifs at h
    · split at h
      · cases h
      · rename_i n d hsize
        have hle := pushDataSize_length_le hsize
        split_ifs at h
        cases h
        simp
        omega
    · cases h
      simp

/-- Split a script into its operations, or fail where `GetOp2` fails. -/
def parseScript (pc : List UInt8) : Option (List (UInt8 × List UInt8)) :=
  if pc = [] then some []
  else
    match h : getOp2 pc with
    | none => none
    | some (opcode, data, pc') => (parseScript pc').map ((opcode, data) :: ·)
termination_by pc.length
decreasing_by exact getOp2_length_lt h

theorem parseScript_nil : parseScript [] = some [] := by
  rw [parseScript, if_pos rfl]

/-- Parsing reads the operation `GetOp2` returns, then parses the rest. -/
theorem parseScript_of_getOp2 {pc pc' data : List UInt8} {opcode : UInt8}
    (h : getOp2 pc = some (opcode, data, pc')) :
    parseScript pc = (parseScript pc').map ((opcode, data) :: ·) := by
  have hne : pc ≠ [] := by
    rintro rfl
    cases h
  rw [parseScript, if_neg hne]
  split
  · next hnone =>
    rw [h] at hnone
    cases hnone
  · next opcode' data' pc'' hsome =>
    rw [h] at hsome
    cases hsome
    rfl

/-- `CheckMinimalPush`: a push must use the shortest opcode for its data. -/
def checkMinimalPush (data : List UInt8) (opcode : UInt8) : Bool :=
  if op0 > opcode ∨ opcode > opPushData4 then true
  else if data.length = 0 then opcode = op0
  else if data.length = 1 ∧ (1 : UInt8) ≤ data[0]! ∧ data[0]! ≤ 16 then false
  else if data.length = 1 ∧ data[0]! = 0x81 then false
  else if data.length ≤ 75 then opcode.toNat = data.length
  else if data.length ≤ 255 then opcode = opPushData1
  else if data.length ≤ 65535 then opcode = opPushData2
  else true

/-- Little-endian bytes of the low `n` bytes of a number (`WriteLE16`,
`WriteLE32`). -/
def writeLE (n : Nat) (v : Nat) : List UInt8 :=
  (List.range n).map fun i => (v / 256 ^ i % 256).toUInt8

/-- `CScript::serializeVector`: a push opcode with its length, then the data. -/
def serializeVector (b : List UInt8) : List UInt8 :=
  (if b.length < opPushData1.toNat then [b.length.toUInt8]
  else if b.length ≤ 0xff then [opPushData1, b.length.toUInt8]
  else if b.length ≤ 0xffff then opPushData2 :: writeLE 2 b.length
  else opPushData4 :: writeLE 4 b.length) ++ b

/-- `CScript::operator<<(const std::vector<unsigned char> &)`, which is also
the constructor `CScript(vch)`: small numbers get their own opcode. -/
def pushVector (b : List UInt8) : List UInt8 :=
  if b.length = 0 then [op0]
  else if b.length = 1 ∧ (1 : UInt8) ≤ b[0]! ∧ b[0]! ≤ 16 then [op1 - (1 : UInt8) + b[0]!]
  else if b.length = 1 ∧ b[0]! = 0x81 then [op1Negate]
  else serializeVector b

/-- The inner `while` of `FindAndDelete`: drop the pattern from the front as
often as it is there, counting the drops. -/
def stripPattern (b : List UInt8) (pc : List UInt8) : List UInt8 × Nat :=
  if hb : b = [] then (pc, 0)
  else if b.length ≤ pc.length ∧ b = pc.take b.length then
    let r := stripPattern b (pc.drop b.length)
    (r.1, r.2 + 1)
  else (pc, 0)
termination_by pc.length
decreasing_by
  have : 0 < b.length := List.length_pos_of_ne_nil hb
  simp only [List.length_drop]
  omega

theorem stripPattern_length_le (b pc : List UInt8) :
    (stripPattern b pc).1.length ≤ pc.length := by
  fun_induction stripPattern b pc with
  | case1 => simp
  | case2 pc hb hmatch r ih =>
    have hdrop : (pc.drop b.length).length ≤ pc.length := by simp
    exact le_trans ih hdrop
  | case3 => simp

/-- The outer `do ... while (GetOp(pc, opcode))` loop of `FindAndDelete`:
at each operation boundary strip the pattern, then copy one operation; where
`GetOp` fails the rest of the script is copied as it is. -/
def findAndDeleteLoop (b : List UInt8) (pc : List UInt8) : List UInt8 × Nat :=
  let s := stripPattern b pc
  match h : getOp2 s.1 with
  | none => (s.1, s.2)
  | some (_, _, pc') =>
    let r := findAndDeleteLoop b pc'
    (s.1.take (s.1.length - pc'.length) ++ r.1, s.2 + r.2)
termination_by pc.length
decreasing_by
  exact lt_of_lt_of_le (getOp2_length_lt h) (stripPattern_length_le b pc)

/-- `CScript::FindAndDelete`: the script with every occurrence of `b` at an
operation boundary removed, and the number removed. -/
def findAndDelete (script b : List UInt8) : List UInt8 × Nat :=
  if b = [] then (script, 0)
  else
    let r := findAndDeleteLoop b script
    if r.2 > 0 then r else (script, 0)

end Membercoin
