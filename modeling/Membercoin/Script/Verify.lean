import Membercoin.Script.Run

/-!
# `VerifyScript`

`VerifyScript` runs the unlocking script on a fresh machine, then the locking
script on the stack it left (with the alt stack cleared), and requires a true
top element. For a pay-to-script-hash output it restores the stack the
unlocking script left, pops the serialized redeem script off it and runs that
script too, except for the segwit-recovery case where the popped script was
the only element and is a witness program. `CLEANSTACK` comes last.

Every `Eval` of `VerifyScript` therefore starts from a machine that a
successful `Eval` left, or from the empty machine, with the alt stack
cleared and the main stack possibly shortened; `ScriptMachine.Bounded` is
what the later modules show to hold of each of them.
-/

namespace Membercoin

/-! ## Flags and script templates -/

/-- `ScriptMachine(flags, checker, maxOps, 0xffffffff)`: empty stacks and an
empty condition stack. -/
def ScriptMachine.init (flags : UInt32) (maxOps : Nat) : ScriptMachine :=
  ⟨flags, maxOps, [], ⟨[], [], .init, [], 0, 0, 0⟩⟩

variable (crypto : CryptoFunctions) (checker : BaseSignatureChecker)

end Membercoin
