import Membercoin.Script.Opcodes

/-!
# The condition stack of `OP_IF`

`ScriptMachine::ConditionStack` stands for a stack of booleans, one per open
`OP_IF`/`OP_NOTIF`, of which only emptiness and "all true" are ever observed.
It stores the size of that stack and the position of its first `false`
(counted from the bottom), `NO_FALSE` when there is none. Here `NO_FALSE` is
`none`; the structure carries the fact that a first-false position lies
inside the stack, which every operation keeps.

`pop_back` and `toggle_top` `assert` a non-empty stack; they return
`Fault.assertFailure` on an empty one.

Two layers connect the class to the stack it stands for. `Word` has the two
`uint32_t` fields as the source declares them, with `NO_FALSE` the largest
value; while the stack is shorter than `NO_FALSE` it holds what
`ConditionStack` holds (`Word.Represents`). `ConditionStack` in turn stands
for a list of booleans, bottom first (`Abstracts`): every operation keeps
both relations, and along a run so do the observations `empty()` and
`all_true()` (`conditionStack_refines_list`).
-/

namespace Membercoin

/-- `ScriptMachine::ConditionStack`. -/
structure ConditionStack where
  stackSize : Nat
  firstFalsePos : Option Nat
  firstFalse_lt : ∀ p, firstFalsePos = some p → p < stackSize

namespace ConditionStack

/-- The empty condition stack (also `clear()`). -/
def init : ConditionStack := ⟨0, none, by simp⟩

/-- `empty()`. -/
def empty (c : ConditionStack) : Bool := c.stackSize = 0

/-- `all_true()`. -/
def allTrue (c : ConditionStack) : Bool := c.firstFalsePos.isNone

/-- `push_back(f)`: a `false` pushed on an all-true stack becomes its first
`false`. -/
def pushBack (c : ConditionStack) (f : Bool) : ConditionStack where
  stackSize := c.stackSize + 1
  firstFalsePos := if c.firstFalsePos = none ∧ !f then some c.stackSize else c.firstFalsePos
  firstFalse_lt := by
    intro p hp
    split_ifs at hp with h
    · cases hp
      omega
    · have := c.firstFalse_lt p hp
      omega

/-- `pop_back()`: popping the first `false` makes the stack all true. -/
def popBack (c : ConditionStack) : Except Fault ConditionStack :=
  if h : c.stackSize > 0 then
    pure
      { stackSize := c.stackSize - 1
        firstFalsePos := if c.firstFalsePos = some (c.stackSize - 1) then none else c.firstFalsePos
        firstFalse_lt := by
          intro p hp
          split_ifs at hp with hpos
          have hlt := c.firstFalse_lt p hp
          have hne : p ≠ c.stackSize - 1 := by
            intro hp'
            exact hpos (hp'.symm ▸ hp)
          omega }
  else throw .assertFailure

/-- `toggle_top()`: only a toggle of the first `false`, or of the top of an
all-true stack, is observable. -/
def toggleTop (c : ConditionStack) : Except Fault ConditionStack :=
  if h : c.stackSize > 0 then
    pure
      { stackSize := c.stackSize
        firstFalsePos :=
          if c.firstFalsePos = none then some (c.stackSize - 1)
          else if c.firstFalsePos = some (c.stackSize - 1) then none
          else c.firstFalsePos
        firstFalse_lt := by
          intro p hp
          split_ifs at hp with h1 h2
          · cases hp
            omega
          · exact c.firstFalse_lt p hp }
  else throw .assertFailure

@[simp] theorem init_stackSize : init.stackSize = 0 := rfl

@[simp] theorem pushBack_stackSize (c : ConditionStack) (f : Bool) :
    (c.pushBack f).stackSize = c.stackSize + 1 := rfl

theorem popBack_stackSize {c c' : ConditionStack} (h : c.popBack = .ok c') :
    c'.stackSize + 1 = c.stackSize := by
  unfold popBack at h
  by_cases hpos : c.stackSize > 0
  · rw [dif_pos hpos] at h
    cases h
    simp only
    omega
  · rw [dif_neg hpos] at h
    cases h

theorem toggleTop_stackSize {c c' : ConditionStack} (h : c.toggleTop = .ok c') :
    c'.stackSize = c.stackSize := by
  unfold toggleTop at h
  by_cases hpos : c.stackSize > 0
  · rw [dif_pos hpos] at h
    cases h
    rfl
  · rw [dif_neg hpos] at h
    cases h

theorem empty_iff (c : ConditionStack) : c.empty = true ↔ c.stackSize = 0 := by
  simp [empty]

theorem empty_eq_false_iff (c : ConditionStack) : c.empty = false ↔ 0 < c.stackSize := by
  simp [empty, Nat.pos_iff_ne_zero]

/-- A non-empty stack pops without failing the `assert`. -/
theorem popBack_ok {c : ConditionStack} (h : c.empty = false) :
    ∃ c', c.popBack = .ok c' := by
  have hpos : c.stackSize > 0 := by
    simp only [empty, decide_eq_false_iff_not] at h
    omega
  exact ⟨_, by simp [popBack, hpos]; rfl⟩

/-- A non-empty stack toggles without failing the `assert`. -/
theorem toggleTop_ok {c : ConditionStack} (h : c.empty = false) :
    ∃ c', c.toggleTop = .ok c' := by
  have hpos : c.stackSize > 0 := by
    simp only [empty, decide_eq_false_iff_not] at h
    omega
  exact ⟨_, by simp [toggleTop, hpos]; rfl⟩

/-! ### The stack of booleans it stands for -/

/-- The operations of `ConditionStack`; `clear()` is the third place `init`
is reached from. -/
inductive Op where
  | pushBack (f : Bool)
  | popBack
  | toggleTop
  | clear
  deriving Repr, DecidableEq

/-- The operation on the stack of booleans, bottom first. -/
def Op.applyList : Op → List Bool → List Bool
  | .pushBack f, l => l ++ [f]
  | .popBack, l => l.dropLast
  | .toggleTop, l => l.dropLast ++ (l.getLast?.map (!·)).toList
  | .clear, _ => []

/-- `pop_back` and `toggle_top` only on a non-empty stack. -/
def Op.valid : Op → List Bool → Bool
  | .popBack, l => !l.isEmpty
  | .toggleTop, l => !l.isEmpty
  | _, _ => true

def runList (ops : List Op) (l : List Bool) : List Bool := ops.foldl (fun l o => o.applyList l) l

/-- Every operation of `ops`, applied from `l`, meets its precondition. -/
def validRun : List Bool → List Op → Bool
  | _, [] => true
  | l, o :: ops => o.valid l && validRun (o.applyList l) ops

def Op.apply (c : ConditionStack) : Op → Except Fault ConditionStack
  | .pushBack f => pure (c.pushBack f)
  | .popBack => c.popBack
  | .toggleTop => c.toggleTop
  | .clear => pure init

def run (ops : List Op) (c : ConditionStack) : Except Fault ConditionStack := ops.foldlM Op.apply c

/-- `c` stands for `l`: its size, and the position of the first `false`
counted from the bottom. -/
def Abstracts (c : ConditionStack) (l : List Bool) : Prop :=
  c.stackSize = l.length ∧ c.firstFalsePos = l.findIdx? (!·)

theorem findIdx?_concat (l : List Bool) (b : Bool) :
    (l ++ [b]).findIdx? (!·) = (l.findIdx? (!·)).or (if b then none else some l.length) := by
  rw [List.findIdx?_append]
  cases b <;> simp

theorem init_abstracts : init.Abstracts [] := ⟨rfl, rfl⟩

theorem Abstracts.pushBack {c : ConditionStack} {l : List Bool} (h : c.Abstracts l) (f : Bool) :
    (c.pushBack f).Abstracts (l ++ [f]) := by
  obtain ⟨hsize, hfirst⟩ := h
  refine ⟨by simp [hsize], ?_⟩
  simp only [ConditionStack.pushBack, findIdx?_concat, ← hfirst, ← hsize]
  cases c.firstFalsePos <;> cases f <;> simp

/-- Popping the top `b`: only a `false` at the first-false position is
seen. -/
theorem Abstracts.popBack {c : ConditionStack} {l : List Bool} {b : Bool} (h : c.Abstracts (l ++ [b])) :
    ∃ c', c.popBack = .ok c' ∧ c'.Abstracts l := by
  obtain ⟨hsize, hfirst⟩ := h
  have hpos : c.stackSize > 0 := by simp [hsize]
  have hlen : c.stackSize - 1 = l.length := by simp [hsize]
  refine ⟨_, by rw [ConditionStack.popBack, dif_pos hpos]; rfl, hlen, ?_⟩
  simp only [hlen]
  rw [hfirst, findIdx?_concat]
  rcases hl : l.findIdx? (!·) with _ | p
  · cases b <;> simp
  · have hp : p < l.length := (List.findIdx?_eq_some_iff_getElem.mp hl).1
    have hne : p ≠ l.length := by omega
    simp [hne]

/-- Toggling the top `b`: the first `false` appears on top of an all-true
stack, and disappears when it was the top. -/
theorem Abstracts.toggleTop {c : ConditionStack} {l : List Bool} {b : Bool} (h : c.Abstracts (l ++ [b])) :
    ∃ c', c.toggleTop = .ok c' ∧ c'.Abstracts (l ++ [!b]) := by
  obtain ⟨hsize, hfirst⟩ := h
  have hpos : c.stackSize > 0 := by simp [hsize]
  have hlen : c.stackSize - 1 = l.length := by simp [hsize]
  refine ⟨_, by rw [ConditionStack.toggleTop, dif_pos hpos]; rfl, by simp [hsize], ?_⟩
  simp only [hlen]
  rw [hfirst, findIdx?_concat, findIdx?_concat]
  rcases hl : l.findIdx? (!·) with _ | p
  · cases b <;> simp
  · have hp : p < l.length := (List.findIdx?_eq_some_iff_getElem.mp hl).1
    have hne : p ≠ l.length := by omega
    simp [hne]

theorem eq_concat_of_valid {l : List Bool} (h : (!l.isEmpty) = true) : ∃ l' b, l = l' ++ [b] := by
  have hne : l ≠ [] := by simpa using h
  exact ⟨l.dropLast, l.getLast hne, (List.dropLast_append_getLast hne).symm⟩

/-- One operation that meets its precondition keeps the abstraction. -/
theorem Abstracts.apply {c : ConditionStack} {l : List Bool} (h : c.Abstracts l) {o : Op}
    (hvalid : o.valid l = true) : ∃ c', o.apply c = .ok c' ∧ c'.Abstracts (o.applyList l) := by
  cases o with
  | pushBack f => exact ⟨_, rfl, h.pushBack f⟩
  | clear => exact ⟨_, rfl, init_abstracts⟩
  | popBack =>
    obtain ⟨l', b, rfl⟩ := eq_concat_of_valid hvalid
    simpa [Op.apply, Op.applyList] using h.popBack
  | toggleTop =>
    obtain ⟨l', b, rfl⟩ := eq_concat_of_valid hvalid
    simpa [Op.apply, Op.applyList] using h.toggleTop

/-- The run lemma: a valid run of operations keeps the stack standing for
the list the same operations build. -/
theorem Abstracts.run : ∀ (ops : List Op) {c : ConditionStack} {l : List Bool}, c.Abstracts l →
    validRun l ops = true → ∃ c', ConditionStack.run ops c = .ok c' ∧ c'.Abstracts (runList ops l)
  | [], c, _, h, _ => ⟨c, rfl, h⟩
  | o :: ops, c, l, h, hvalid => by
    simp only [validRun, Bool.and_eq_true] at hvalid
    obtain ⟨c₁, h₁, habs₁⟩ := h.apply hvalid.1
    obtain ⟨c₂, h₂, habs₂⟩ := habs₁.run ops hvalid.2
    refine ⟨c₂, ?_, habs₂⟩
    simp only [ConditionStack.run, List.foldlM_cons, h₁]
    exact h₂

theorem Abstracts.empty_eq {c : ConditionStack} {l : List Bool} (h : c.Abstracts l) :
    c.empty = l.isEmpty := by
  rw [ConditionStack.empty, h.1]
  cases l <;> rfl

theorem Abstracts.allTrue_eq {c : ConditionStack} {l : List Bool} (h : c.Abstracts l) :
    c.allTrue = l.all id := by
  rw [ConditionStack.allTrue, h.2]
  cases hl : l.findIdx? (!·) with
  | none =>
    have hall := List.findIdx?_eq_none_iff.mp hl
    refine (List.all_eq_true.mpr fun b hb => ?_).symm
    simpa using hall b hb
  | some p =>
    obtain ⟨hp, hfalse, -⟩ := List.findIdx?_eq_some_iff_getElem.mp hl
    refine (List.all_eq_false.mpr ⟨l[p], List.getElem_mem hp, ?_⟩).symm
    simpa using hfalse

theorem length_applyList_le (o : Op) (l : List Bool) : (o.applyList l).length ≤ l.length + 1 := by
  cases o with
  | toggleTop =>
    have hlast : (l.getLast?.map (!·)).toList.length ≤ 1 := by
      cases l.getLast? <;> simp
    simp only [Op.applyList, List.length_append, List.length_dropLast]
    omega
  | _ => simp [Op.applyList] <;> omega

/-! ### The `uint32_t` fields of the source -/

/-- `NO_FALSE`: `std::numeric_limits<uint32_t>::max()`. -/
def noFalse : UInt32 := 0xFFFFFFFF

/-- `ScriptMachine::ConditionStack` with its two `uint32_t` fields as the
source declares them. `ConditionStack` keeps the size as a natural number and
`NO_FALSE` as `none`; the two agree while the stack is shorter than
`NO_FALSE` (`Word.Represents`). -/
structure Word where
  mStackSize : UInt32
  mFirstFalsePos : UInt32
  deriving Repr, DecidableEq

namespace Word

/-- The initial fields, and `clear()`. -/
def init : Word := ⟨0, noFalse⟩

def empty (c : Word) : Bool := c.mStackSize == 0

def allTrue (c : Word) : Bool := c.mFirstFalsePos == noFalse

def pushBack (c : Word) (f : Bool) : Word where
  mStackSize := c.mStackSize + 1
  mFirstFalsePos := if c.mFirstFalsePos == noFalse && !f then c.mStackSize else c.mFirstFalsePos

def popBack (c : Word) : Except Fault Word :=
  if c.mStackSize > 0 then
    let mStackSize := c.mStackSize - 1
    pure ⟨mStackSize, if c.mFirstFalsePos == mStackSize then noFalse else c.mFirstFalsePos⟩
  else throw .assertFailure

def toggleTop (c : Word) : Except Fault Word :=
  if c.mStackSize > 0 then
    pure ⟨c.mStackSize,
      if c.mFirstFalsePos == noFalse then c.mStackSize - 1
      else if c.mFirstFalsePos == c.mStackSize - 1 then noFalse
      else c.mFirstFalsePos⟩
  else throw .assertFailure

def apply (c : Word) : Op → Except Fault Word
  | .pushBack f => pure (c.pushBack f)
  | .popBack => c.popBack
  | .toggleTop => c.toggleTop
  | .clear => pure init

def run (ops : List Op) (c : Word) : Except Fault Word := ops.foldlM apply c

/-- `w` holds the size of `c`, and its first-false position with `NO_FALSE`
for none. -/
def Represents (w : Word) (c : ConditionStack) : Prop :=
  w.mStackSize.toNat = c.stackSize ∧ w.mFirstFalsePos.toNat = c.firstFalsePos.getD (2 ^ 32 - 1)

theorem beq_eq_decide_toNat (a b : UInt32) : (a == b) = decide (a.toNat = b.toNat) := by
  rw [Bool.eq_iff_iff, beq_iff_eq, decide_eq_true_iff, UInt32.toNat_inj]

/-- A first-false position lies inside a stack of fewer than `2 ^ 32`
entries, so it is never `NO_FALSE`. -/
theorem Represents.allTrue_eq {w : Word} {c : ConditionStack} (h : w.Represents c) :
    w.allTrue = c.allTrue := by
  rw [allTrue, ConditionStack.allTrue, beq_eq_decide_toNat, h.2]
  cases hc : c.firstFalsePos with
  | none => rfl
  | some p =>
    have hp := c.firstFalse_lt p hc
    have hsize := h.1 ▸ w.mStackSize.toNat_lt
    simp only [Option.getD_some, Option.isNone_some, decide_eq_false_iff_not]
    rw [show noFalse.toNat = 2 ^ 32 - 1 from rfl]
    omega

theorem Represents.empty_eq {w : Word} {c : ConditionStack} (h : w.Represents c) :
    w.empty = c.empty := by
  rw [empty, ConditionStack.empty, beq_eq_decide_toNat, h.1]
  rfl

theorem init_represents : init.Represents ConditionStack.init := ⟨rfl, rfl⟩

/-- A push with room below `NO_FALSE`. -/
theorem Represents.pushBack {w : Word} {c : ConditionStack} (h : w.Represents c)
    (hroom : c.stackSize < 2 ^ 32 - 1) (f : Bool) : (w.pushBack f).Represents (c.pushBack f) := by
  obtain ⟨hs, hf⟩ := h
  have hnoFalse : (w.mFirstFalsePos == noFalse) = c.firstFalsePos.isNone := (Represents.allTrue_eq ⟨hs, hf⟩)
  constructor
  · rw [Word.pushBack, UInt32.toNat_add, hs, ConditionStack.pushBack_stackSize]
    exact Nat.mod_eq_of_lt (by simp; omega)
  · simp only [Word.pushBack, ConditionStack.pushBack, hnoFalse]
    cases hc : c.firstFalsePos <;> cases f <;> simp [hc] at hf ⊢ <;> omega

/-- The top position of a non-empty stack, `m_stack_size - 1`. -/
theorem Represents.sub_one {w : Word} {c : ConditionStack} (h : w.Represents c) (hpos : c.stackSize > 0) :
    w.mStackSize > 0 ∧ (w.mStackSize - 1).toNat = c.stackSize - 1 := by
  have hwpos : w.mStackSize > 0 := by
    rw [GT.gt, UInt32.lt_iff_toNat_lt, h.1]
    exact hpos
  refine ⟨hwpos, ?_⟩
  have hone : (1 : UInt32).toNat ≤ w.mStackSize.toNat := by
    rw [UInt32.toNat_one, h.1]
    exact hpos
  rw [UInt32.toNat_sub_of_le _ _ (UInt32.le_iff_toNat_le.mpr hone), h.1]
  rfl

/-- `m_first_false_pos == m_stack_size - 1`: the top is the first `false`.
`NO_FALSE` lies above every position of a stack shorter than `2 ^ 32`. -/
theorem Represents.beq_top {w : Word} {c : ConditionStack} (h : w.Represents c) (hpos : c.stackSize > 0) :
    (w.mFirstFalsePos == w.mStackSize - 1) = decide (c.firstFalsePos = some (c.stackSize - 1)) := by
  have hsize : c.stackSize < 2 ^ 32 := h.1 ▸ w.mStackSize.toNat_lt
  rw [beq_eq_decide_toNat, (h.sub_one hpos).2, h.2]
  cases c.firstFalsePos with
  | none =>
    simp only [Option.getD_none, reduceCtorEq, decide_false, decide_eq_false_iff_not]
    omega
  | some p => simp

theorem Represents.popBack {w : Word} {c c' : ConditionStack} (h : w.Represents c)
    (hc : c.popBack = .ok c') : ∃ w', w.popBack = .ok w' ∧ w'.Represents c' := by
  unfold ConditionStack.popBack at hc
  split at hc
  · rename_i hpos
    cases hc
    obtain ⟨hwpos, hsub⟩ := h.sub_one hpos
    refine ⟨_, by rw [Word.popBack, if_pos hwpos]; rfl, hsub, ?_⟩
    simp only [h.beq_top hpos, decide_eq_true_eq]
    split_ifs
    · rfl
    · exact h.2
  · cases hc

theorem Represents.toggleTop {w : Word} {c c' : ConditionStack} (h : w.Represents c)
    (hc : c.toggleTop = .ok c') : ∃ w', w.toggleTop = .ok w' ∧ w'.Represents c' := by
  unfold ConditionStack.toggleTop at hc
  split at hc
  · rename_i hpos
    cases hc
    obtain ⟨hwpos, hsub⟩ := h.sub_one hpos
    have hnoFalse : (w.mFirstFalsePos == noFalse) = decide (c.firstFalsePos = none) := by
      have hall := h.allTrue_eq
      rw [allTrue, ConditionStack.allTrue] at hall
      rw [hall]
      cases c.firstFalsePos <;> rfl
    refine ⟨_, by rw [Word.toggleTop, if_pos hwpos]; rfl, ?_, ?_⟩
    · exact h.1
    · simp only [hnoFalse, h.beq_top hpos, decide_eq_true_eq]
      split_ifs
      · exact hsub
      · rfl
      · exact h.2
  · cases hc

/-- One operation, with room below `NO_FALSE` for a push. -/
theorem Represents.apply {w : Word} {c c' : ConditionStack} (h : w.Represents c)
    (hroom : c.stackSize < 2 ^ 32 - 1) {o : Op} (hc : o.apply c = .ok c') :
    ∃ w', w.apply o = .ok w' ∧ w'.Represents c' := by
  cases o with
  | pushBack f =>
    cases hc
    exact ⟨_, rfl, h.pushBack hroom f⟩
  | popBack => exact h.popBack hc
  | toggleTop => exact h.toggleTop hc
  | clear =>
    cases hc
    exact ⟨_, rfl, init_represents⟩

/-- The run lemma: while the operations still to come cannot fill the stack
up to `NO_FALSE`, the fields hold what the natural-number model holds, and
that model stands for the list. -/
theorem Represents.run : ∀ (ops : List Op) {w : Word} {c : ConditionStack} {l : List Bool},
    w.Represents c → c.Abstracts l → l.length + ops.length ≤ 2 ^ 32 - 1 → validRun l ops = true →
    ∃ w' c', Word.run ops w = .ok w' ∧ w'.Represents c' ∧ c'.Abstracts (runList ops l)
  | [], w, c, _, h, habs, _, _ => ⟨w, c, rfl, h, habs⟩
  | o :: ops, w, c, l, h, habs, hroom, hvalid => by
    simp only [validRun, Bool.and_eq_true] at hvalid
    rw [List.length_cons] at hroom
    obtain ⟨c₁, hc₁, habs₁⟩ := habs.apply hvalid.1
    obtain ⟨w₁, hw₁, h₁⟩ := h.apply (by rw [habs.1]; omega) hc₁
    have hroom₁ : (o.applyList l).length + ops.length ≤ 2 ^ 32 - 1 := by
      have hgrow := length_applyList_le o l
      omega
    obtain ⟨w₂, c₂, hw₂, h₂, habs₂⟩ := h₁.run ops habs₁ hroom₁ hvalid.2
    refine ⟨w₂, c₂, ?_, h₂, habs₂⟩
    simp only [Word.run, List.foldlM_cons, hw₁]
    exact hw₂

end Word

/-- The two `uint32_t` fields stand for a stack of booleans. Along every run
of fewer than `NO_FALSE` operations that pops and toggles only a non-empty
stack, no `assert` fails, `empty()` says whether the stack is empty and
`all_true()` whether all its entries are `true`; every prefix of such a run
is one as well. -/
theorem conditionStack_refines_list (ops : List Op) (hlen : ops.length < 2 ^ 32 - 1)
    (hvalid : validRun [] ops = true) :
    ∃ w, Word.run ops Word.init = .ok w ∧ w.empty = (runList ops []).isEmpty ∧
      w.allTrue = (runList ops []).all id := by
  obtain ⟨w, c, hrun, hrep, habs⟩ :=
    Word.Represents.run ops Word.init_represents init_abstracts (by rw [List.length_nil]; omega) hvalid
  refine ⟨w, hrun, ?_, ?_⟩
  · rw [hrep.empty_eq, habs.empty_eq]
  · rw [hrep.allTrue_eq, habs.allTrue_eq]

theorem conditionStack_refines_list_ifElse :
    ∃ w, Word.run [.pushBack true, .pushBack false, .toggleTop, .popBack, .toggleTop] Word.init = .ok w ∧
      w.empty = (runList [.pushBack true, .pushBack false, .toggleTop, .popBack, .toggleTop] []).isEmpty ∧
      w.allTrue = (runList [.pushBack true, .pushBack false, .toggleTop, .popBack, .toggleTop] []).all id :=
  conditionStack_refines_list _ (by decide) (by decide)

end ConditionStack

end Membercoin
