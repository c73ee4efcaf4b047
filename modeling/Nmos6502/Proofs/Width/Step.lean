import Nmos6502.Cpu
import Nmos6502.Proofs.Width.Operations

/-!
# A step in fixed width

What the processor computes between two instructions, as calculations.  The sum that shows whether
indexing leaves a page is taken in sixteen bits, the cycles of an instruction in 32, and the cycles
of all time in 64.  Everything else that the processor adds or subtracts wraps by design, and
addresses are words, for each of which there is a cell.

All of it is exact but for the last: an instruction takes seven cycles at most, but nothing bounds
the cycles of all time (`Calculation.computes_step`, `Calculation.computes_reset`).
-/

set_option autoImplicit false

namespace Nmos6502

namespace Calculation

/-! ## Locating an operand -/

def indexed (base : Word) (index : Byte) : Calculation Operand := do
  let offset ← sum (.unsigned 16) base.low.toNat index.toNat
  return { address := some (base + index.setWidth 16), pageCrossed := decide (0xFF < offset) }

def resolve (mode : Mode) (registers : Registers) : Calculation Operand :=
  match mode with
  | .absoluteX => do
      let base ← ofProgram (Program.readWord registers.pc)
      indexed base registers.x
  | .absoluteY => do
      let base ← ofProgram (Program.readWord registers.pc)
      indexed base registers.y
  | .indirectY => do
      let pointer ← ofProgram (Program.readByte registers.pc)
      let base ← ofProgram (Addressing.zeroPagePointer pointer)
      indexed base registers.y
  | mode => ofProgram (Addressing.resolve mode registers)

theorem computes_indexed (base : Word) (index : Byte) :
    (indexed base index).Computes (.done (Operand.indexed base index)) := by
  have baseBound := base.low.isLt
  have indexBound := index.isLt
  have crossed : decide (0xFF < (base.low.toNat + index.toNat : Int)) =
      Operand.crosses base index := by
    rw [Bool.eq_iff_iff, Operand.crosses_iff, decide_eq_true_iff, Word.toNat_low]
    omega
  refine .number (.sum (IntegerType.fits_unsigned.mpr (by omega)) rfl) ?_
  rw [crossed]
  exact .done _

theorem computes_resolve (mode : Mode) (registers : Registers) :
    (resolve mode registers).Computes (Addressing.resolve mode registers) := by
  cases mode with
  | absoluteX => exact .bind (.ofProgram _) fun base => computes_indexed base registers.x
  | absoluteY => exact .bind (.ofProgram _) fun base => computes_indexed base registers.y
  | indirectY =>
      exact .bind (.ofProgram _) fun pointer =>
        .bind (.ofProgram _) fun base => computes_indexed base registers.y
  | _ => exact .ofProgram _

/-! ## Executing an instruction -/

def act (action : Action) (decimalMode : Bool) (operand : Operand) (registers : Registers) :
    Calculation Registers :=
  match action with
  | .add => do
      let value ← ofProgram (operand.fetch registers)
      let result ← add (decimalMode && registers.status.decimal) registers.a value registers.status
      return registers.accumulate result
  | .subtract => do
      let value ← ofProgram (operand.fetch registers)
      let result ←
        subtract (decimalMode && registers.status.decimal) registers.a value registers.status
      return registers.accumulate result
  | action => ofProgram (action.execute decimalMode operand registers)

def branchCycles (taken : Bool) (operand : Operand) : Calculation Int :=
  if taken then sum (.unsigned 32) 1 operand.pageCrossed.toNat else return 0

def extraCycles (mnemonic : Mnemonic) (operand : Operand) (status : Status) : Calculation Int :=
  match mnemonic.action with
  | .branch flag value => branchCycles (status.get flag == value) operand
  | _ => return 0

def totalCycles (instruction : Instruction) (operand : Operand) (status : Status) :
    Calculation Int := do
  let extra ← extraCycles instruction.mnemonic operand status
  let cycles ← sum (.unsigned 32) instruction.cycles extra
  if instruction.pagePenalty && operand.pageCrossed && !instruction.mnemonic.isBranch then
    sum (.unsigned 32) cycles 1
  else return cycles

def execute (instruction : Instruction) (decimalMode : Bool) (registers : Registers) :
    Calculation (Registers × Nat) := do
  let atOperand := registers.advance 1
  let operand ← resolve instruction.mode atOperand
  let behind := atOperand.advance (BitVec.ofNat 16 instruction.mode.operandLength)
  let after ← act instruction.mnemonic.action decimalMode operand behind
  let cycles ← totalCycles instruction operand registers.status
  return (after, cycles.toNat)

theorem computes_act (action : Action) (decimalMode : Bool) (operand : Operand)
    (registers : Registers) :
    (act action decimalMode operand registers).Computes
      (action.execute decimalMode operand registers) := by
  cases action with
  | add =>
      exact .bind (.ofProgram _) fun value => .number (computes_add _ _ _ _) (.done _)
  | subtract =>
      exact .bind (.ofProgram _) fun value => .number (computes_subtract _ _ _ _) (.done _)
  | _ => exact .ofProgram _

theorem computes_branchCycles (taken : Bool) (operand : Operand) :
    (branchCycles taken operand).Computes (.done (Action.branchCycles taken operand : Int)) := by
  have crossed := operand.pageCrossed.toNat_le
  cases taken with
  | true =>
      have total : (Action.branchCycles true operand : Int) = 1 + operand.pageCrossed.toNat := by
        rw [Action.branchCycles, if_pos rfl, Nat.cast_add, Nat.cast_one]
      rw [total]
      exact .sum (IntegerType.fits_unsigned.mpr (by omega)) rfl
  | false => exact .done _

theorem computes_extraCycles (instruction : Instruction) (operand : Operand) (status : Status) :
    ∃ extra : Nat,
      (extraCycles instruction.mnemonic operand status).Computes (.done (extra : Int)) ∧
        instruction.totalCycles operand status = instruction.cycles + extra +
          (instruction.pagePenalty && operand.pageCrossed &&
            !instruction.mnemonic.isBranch).toNat := by
  unfold extraCycles Instruction.totalCycles Mnemonic.isBranch
  cases instruction.mnemonic.action with
  | branch flag value =>
      refine ⟨_, computes_branchCycles (status.get flag == value) operand, ?_⟩
      simp
  | _ => exact ⟨0, .done 0, by simp⟩

theorem computes_totalCycles {opcode : Byte} {instruction : Instruction}
    (documented : decode opcode = some instruction) (operand : Operand) (status : Status) :
    (totalCycles instruction operand status).Computes
      (.done (instruction.totalCycles operand status : Int)) := by
  have atMost := (Instruction.totalCycles_bounds documented operand status).2
  obtain ⟨extra, computes, total⟩ := computes_extraCycles instruction operand status
  refine .number computes (.number (.sum (IntegerType.fits_unsigned.mpr (by omega)) rfl) ?_)
  cases pays : instruction.pagePenalty && operand.pageCrossed && !instruction.mnemonic.isBranch with
  | true =>
      rw [pays, Bool.toNat_true] at total
      rw [if_pos rfl]
      exact .sum (IntegerType.fits_unsigned.mpr (by omega)) (by omega)
  | false =>
      rw [pays, Bool.toNat_false] at total
      rw [if_neg Bool.false_ne_true, total, Nat.add_zero, Nat.cast_add]
      exact .done _

theorem computes_execute {opcode : Byte} {instruction : Instruction}
    (documented : decode opcode = some instruction) (decimalMode : Bool)
    (registers : Registers) :
    (execute instruction decimalMode registers).Computes
      (instruction.execute decimalMode registers) := by
  refine .bind (computes_resolve _ _) fun operand => .bind (computes_act _ _ _ _) fun after =>
    .number (computes_totalCycles documented operand registers.status) ?_
  exact .done _

/-! ## Steps and resets -/

def complete (cpu : Cpu) (registers : Registers) (cycles : Nat) :
    Calculation (Except Fault Completed) := do
  let total ← sum (.unsigned 64) cpu.cycles cycles
  return .ok { cycles, cpu := { cpu with registers, cycles := total.toNat } }

def skip (cpu : Cpu) (opcode : Byte) : Calculation (Except Fault Completed) :=
  if cpu.config.strict then return .error (.unknownOpcode opcode cpu.registers.pc)
  else complete cpu (cpu.registers.advance 1) Cpu.skipCycles

def runInstruction (cpu : Cpu) : Calculation (Except Fault Completed) := do
  let opcode ← ofProgram (Program.readByte cpu.registers.pc)
  match decode opcode with
  | none => skip cpu opcode
  | some instruction => do
      let (registers, cycles) ← execute instruction cpu.config.decimalMode cpu.registers
      complete cpu registers cycles

def step (cpu : Cpu) : Calculation (Except Fault Completed) :=
  match cpu.interrupts.poll cpu.registers.status.irqDisable with
  | (some kind, interrupts) => do
      let registers ← ofProgram (cpu.registers.enter kind)
      complete { cpu with interrupts } registers Cpu.interruptCycles
  | (none, _) => runInstruction cpu

def reset (cpu : Cpu) : Calculation Cpu := do
  let target ← ofProgram (Program.readWord Interrupt.reset.vector)
  let total ← sum (.unsigned 64) cpu.cycles Cpu.resetCycles
  return { cpu with
    registers := { sp := cpu.config.resetSp, pc := target, status := Cpu.initialStatus }
    interrupts := cpu.interrupts.clear
    cycles := total.toNat }

/-- If the step completed, the cycles of all time are still below the modulus of their type. -/
def WithinTotal (outcome : Except Fault Completed) : Prop :=
  ∀ completed, outcome = .ok completed → completed.cpu.cycles < 2 ^ 64

theorem fits_total {cycles more : Nat} :
    (IntegerType.unsigned 64).Fits (cycles + more) ↔ cycles + more < 2 ^ 64 := by
  rw [IntegerType.fits_unsigned]
  omega

theorem computes_complete (cpu : Cpu) (registers : Registers) (cycles : Nat) :
    (complete cpu registers cycles).ComputesWithin WithinTotal
      (.done (.ok (cpu.complete registers cycles))) := by
  refine ⟨rfl, fun bus => (and_iff_left trivial).trans ?_⟩
  rw [fits_total]
  constructor
  · rintro below completed ⟨⟩
    exact below
  · exact fun within => within _ rfl

theorem computes_skip (cpu : Cpu) (opcode : Byte) :
    (skip cpu opcode).ComputesWithin WithinTotal (.done (cpu.skip opcode)) := by
  unfold skip Cpu.skip
  split
  · exact ⟨rfl, fun _ => iff_of_true trivial (by rintro completed ⟨⟩)⟩
  · exact computes_complete cpu _ _

theorem computes_runInstruction (cpu : Cpu) :
    (runInstruction cpu).ComputesWithin WithinTotal cpu.runInstruction := by
  refine .bind (.ofProgram _) fun opcode => ?_
  cases documented : decode opcode with
  | none => exact computes_skip cpu opcode
  | some instruction =>
      exact .bind (computes_execute documented _ _) fun outcome =>
        computes_complete cpu outcome.1 outcome.2

theorem computes_step (cpu : Cpu) : (step cpu).ComputesWithin WithinTotal cpu.step := by
  unfold step Cpu.step
  obtain ⟨kind | kind, interrupts⟩ := cpu.interrupts.poll cpu.registers.status.irqDisable
  · exact computes_runInstruction cpu
  · exact .bind (.ofProgram _) fun registers =>
      computes_complete { cpu with interrupts } registers _

theorem computes_reset (cpu : Cpu) :
    (reset cpu).ComputesWithin (fun last => last.cycles < 2 ^ 64) cpu.reset := by
  exact .bind (.ofProgram _) fun target => ⟨rfl, fun bus => (and_iff_left trivial).trans fits_total⟩

end Calculation

end Nmos6502
