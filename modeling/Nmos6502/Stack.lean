import Nmos6502.Registers
import Nmos6502.Bus.Program

/-!
# The hardware stack

The stack grows downward in page one.  A push writes the selected cell and then
moves the pointer down; a pull moves it up and then reads.  Words go high byte
first, so that they lie in memory low byte first.
-/

set_option autoImplicit false

namespace Nmos6502

namespace Registers

def push (registers : Registers) (value : Byte) : Program Registers := do
  Program.writeByte registers.stackAddress value
  return { registers with sp := registers.sp - 1 }

def pull (registers : Registers) : Program (Byte × Registers) := do
  let raised := { registers with sp := registers.sp + 1 }
  let value ← Program.readByte raised.stackAddress
  return (value, raised)

def pushWord (registers : Registers) (value : Word) : Program Registers := do
  let registers ← registers.push value.high
  registers.push value.low

def pullWord (registers : Registers) : Program (Word × Registers) := do
  let (low, registers) ← registers.pull
  let (high, registers) ← registers.pull
  return (Word.ofBytes high low, registers)

variable {World : Type}

theorem run_push (registers : Registers) (value : Byte) (bus : Bus World) :
    (registers.push value).run bus =
      ({ registers with sp := registers.sp - 1 }, bus.write registers.stackAddress value) := rfl

theorem run_pull (registers : Registers) (bus : Bus World) :
    registers.pull.run bus =
      (((bus.read (stackCell (registers.sp + 1))).1,
        { registers with sp := registers.sp + 1 }),
        (bus.read (stackCell (registers.sp + 1))).2) := rfl

end Registers

end Nmos6502
