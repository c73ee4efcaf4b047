import Nmos6502.Word

/-!
# Faults

The two ways in which a request to the machine can be refused, and the texts
that report them.
-/

set_option autoImplicit false

namespace Nmos6502

inductive Fault where
  /-- A byte outside the documented instruction set was fetched as an opcode. -/
  | unknownOpcode (opcode : Byte) (address : Word)
  /-- An image of the given length does not fit between its start and the end of
  memory. -/
  | loadOutOfRange (start : Word) (length : Nat)
  deriving DecidableEq, Repr

namespace Fault

def message : Fault → String
  | unknownOpcode opcode address =>
      "Unknown opcode " ++ opcode.hexText ++ " at " ++ address.dollarHex
  | loadOutOfRange start length =>
      "Invalid load address: " ++ length.repr ++ " bytes at " ++ start.dollarHex
        ++ " exceed the address space"

end Fault

end Nmos6502
