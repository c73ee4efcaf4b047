import Nmos6502.Instruction.Matrix

/-!
# Opcode listing

A line of the listing describes any opcode byte, documented or not.  An
undocumented one is listed without a name as a single byte that takes no time.
-/

set_option autoImplicit false

namespace Nmos6502

structure Listing where
  opcode : Byte
  mnemonic : String
  mode : Mode
  cycles : Nat
  pagePenalty : Bool
  documented : Bool
  length : Nat
  branch : Bool
  deriving DecidableEq, Repr

namespace Listing

def ofOpcode (opcode : Byte) : Listing :=
  match decode opcode with
  | some instruction =>
      { opcode
        mnemonic := instruction.mnemonic.name
        mode := instruction.mode
        cycles := instruction.cycles
        pagePenalty := instruction.pagePenalty
        documented := true
        length := instruction.length
        branch := instruction.mnemonic.isBranch }
  | none =>
      { opcode
        mnemonic := "???"
        mode := .implied
        cycles := 0
        pagePenalty := false
        documented := false
        length := 1
        branch := false }

end Listing

end Nmos6502
