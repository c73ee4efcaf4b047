import Nmos6502.Alu
import Nmos6502.Interrupt
import Nmos6502.Stack
import Nmos6502.Instruction.Matrix

/-!
# Executing an instruction

An action is a bus program from registers to registers.  It starts with the
program counter behind the whole instruction and with the operand resolved.  Only
a branch costs cycles that its place in the matrix does not give: one when it is
taken, and another when its target lies in a page other than that of the next
instruction.
-/

set_option autoImplicit false

namespace Nmos6502

namespace Operand

def fetch (operand : Operand) (registers : Registers) : Program Byte :=
  match operand.address with
  | some address => Program.readByte address
  | Option.none => return registers.a

def replace (operand : Operand) (registers : Registers) (value : Byte) : Program Registers :=
  match operand.address with
  | some address => do
      Program.writeByte address value
      return registers
  | Option.none => return { registers with a := value }

end Operand

namespace Registers

/-- Enters the handler of an interrupt: saves the program counter and the status,
disables interrupts and continues at the vector.  The saved status has the break
bit set for a software break alone. -/
def enter (registers : Registers) (kind : Interrupt) : Program Registers := do
  let registers ← registers.pushWord registers.pc
  let registers ← registers.push (registers.status.pushed (kind == .brk))
  let target ← Program.readWord kind.vector
  return { registers with
    pc := target
    status := { registers.status with irqDisable := true } }

def jump (registers : Registers) (operand : Operand) : Registers :=
  { registers with pc := operand.address.getD registers.pc }

def accumulate (registers : Registers) (result : Alu.Result) : Registers :=
  { registers with a := result.value, status := result.status }

end Registers

namespace Action

/-- The cycles of a branch that is taken or not, beyond those of the matrix. -/
def branchCycles (taken : Bool) (operand : Operand) : Nat :=
  if taken then 1 + operand.pageCrossed.toNat else 0

/-- The registers after an action; `decimalMode` says whether the decimal flag is
obeyed. -/
def execute (action : Action) (decimalMode : Bool) (operand : Operand)
    (registers : Registers) : Program Registers :=
  let status := registers.status
  match action with
  | load target => do
      let value ← operand.fetch registers
      return registers.put target value
  | store source =>
      match operand.address with
      | some address => do
          Program.writeByte address (registers.get source)
          return registers
      | none => return registers
  | add => do
      let value ← operand.fetch registers
      return registers.accumulate
        (Alu.add (decimalMode && status.decimal) registers.a value status)
  | subtract => do
      let value ← operand.fetch registers
      return registers.accumulate
        (Alu.subtract (decimalMode && status.decimal) registers.a value status)
  | compare register => do
      let value ← operand.fetch registers
      return { registers with status := status.afterCompare (registers.get register) value }
  | combine operation => do
      let value ← operand.fetch registers
      return registers.put .a (operation.apply registers.a value)
  | bitTest => do
      let value ← operand.fetch registers
      return { registers with status := status.afterBitTest registers.a value }
  | shift operation => do
      let value ← operand.fetch registers
      let (result, shiftedOut) := operation.apply value status.carry
      operand.replace { registers with status := status.afterShift result shiftedOut } result
  | count direction => do
      let value ← operand.fetch registers
      let result := direction.apply value
      operand.replace { registers with status := status.describing result } result
  | countRegister register direction =>
      return registers.put register (direction.apply (registers.get register))
  | transfer source target => return registers.put target (registers.get source)
  | setStackPointer => return { registers with sp := registers.x }
  | setFlag flag value => return { registers with status := status.set flag value }
  | branch flag value =>
      return if status.get flag == value then registers.jump operand else registers
  | jump => return registers.jump operand
  | call => do
      let registers ← registers.pushWord (registers.pc - 1)
      return registers.jump operand
  | returnFromCall => do
      let (address, registers) ← registers.pullWord
      return { registers with pc := address + 1 }
  | softwareBreak => (registers.advance 1).enter .brk
  | returnFromInterrupt => do
      let (saved, registers) ← registers.pull
      let (address, registers) ← registers.pullWord
      return { registers with pc := address, status := Status.ofBits saved }
  | pushAccumulator => registers.push registers.a
  | pullAccumulator => do
      let (value, registers) ← registers.pull
      return registers.put .a value
  | pushStatus => registers.push (status.pushed true)
  | pullStatus => do
      let (saved, registers) ← registers.pull
      return { registers with status := Status.ofBits saved }
  | nothing => return registers

end Action

namespace Instruction

def totalCycles (instruction : Instruction) (operand : Operand) (status : Status) : Nat :=
  instruction.cycles +
    match instruction.mnemonic.action with
    | .branch flag value => Action.branchCycles (status.get flag == value) operand
    | _ => (instruction.pagePenalty && operand.pageCrossed).toNat

/-- Executes a fetched instruction whose opcode is at the program counter; the
result is the registers after it and the cycles it took. -/
def execute (instruction : Instruction) (decimalMode : Bool) (registers : Registers) :
    Program (Registers × Nat) := do
  let atOperand := registers.advance 1
  let operand ← Addressing.resolve instruction.mode atOperand
  let behind := atOperand.advance (BitVec.ofNat 16 instruction.mode.operandLength)
  let after ← instruction.mnemonic.action.execute decimalMode operand behind
  return (after, instruction.totalCycles operand registers.status)

theorem branchCycles_le (taken : Bool) (operand : Operand) :
    Action.branchCycles taken operand ≤ 2 := by
  have crossed := operand.pageCrossed.toNat_le
  unfold Action.branchCycles
  split <;> omega

theorem totalCycles_bounds {opcode : Byte} {instruction : Instruction}
    (documented : decode opcode = some instruction) (operand : Operand) (status : Status) :
    2 ≤ instruction.totalCycles operand status ∧
      instruction.totalCycles operand status ≤ 7 := by
  obtain ⟨atLeast, atMost, paged, branching⟩ := decode_cycles_bounds opcode instruction documented
  unfold totalCycles
  split
  · rename_i flag value conditional
    have two := branching (by simp [Mnemonic.isBranch, conditional])
    have extra := branchCycles_le (status.get flag == value) operand
    omega
  · cases penalty : instruction.pagePenalty with
    | false =>
        rw [Bool.false_and, Bool.toNat_false]
        omega
    | true =>
        have five := paged penalty
        have extra := (true && operand.pageCrossed).toNat_le
        omega

end Instruction

end Nmos6502
