import Nmos6502.Config
import Nmos6502.Instruction.Execution

/-!
# The processor

A step takes an interrupt if one is requested, and otherwise fetches and executes
one instruction; it is a bus program, so it says which accesses it makes.  A step
is never split: it either completes or, at an undocumented opcode that the
configuration does not tolerate, is refused with nothing done but the fetch.

The main statement is `step_cycles`: a completed step takes from two to seven cycles
and adds what it takes to the cycle counter.
-/

set_option autoImplicit false

namespace Nmos6502

structure Cpu where
  registers : Registers
  config : Config
  interrupts : InterruptLines := {}
  /-- All cycles since power was applied, those of resets included. -/
  cycles : Nat := 0
  deriving DecidableEq, Repr

structure Completed where
  cycles : Nat
  cpu : Cpu
  deriving DecidableEq, Repr

namespace Cpu

def interruptCycles : Nat := 7

def resetCycles : Nat := 7

def skipCycles : Nat := 2

def initialStatus : Status := { irqDisable := true }

def ofConfig (config : Config) : Cpu where
  registers := { sp := config.resetSp, status := initialStatus }
  config := config

def complete (cpu : Cpu) (registers : Registers) (cycles : Nat) : Completed where
  cycles := cycles
  cpu := { cpu with registers, cycles := cpu.cycles + cycles }

/-- Meets an undocumented opcode: a fault, or one byte passed over. -/
def skip (cpu : Cpu) (opcode : Byte) : Except Fault Completed :=
  if cpu.config.strict then .error (.unknownOpcode opcode cpu.registers.pc)
  else .ok (cpu.complete (cpu.registers.advance 1) skipCycles)

def runInstruction (cpu : Cpu) : Program (Except Fault Completed) := do
  let opcode ← Program.readByte cpu.registers.pc
  match decode opcode with
  | none => return cpu.skip opcode
  | some instruction => do
      let (registers, cycles) ←
        instruction.execute cpu.config.decimalMode cpu.registers
      return .ok (cpu.complete registers cycles)

def step (cpu : Cpu) : Program (Except Fault Completed) :=
  match cpu.interrupts.poll cpu.registers.status.irqDisable with
  | (some kind, interrupts) => do
      let registers ← cpu.registers.enter kind
      return .ok ({ cpu with interrupts }.complete registers interruptCycles)
  | (none, _) => cpu.runInstruction

/-- Puts the processor into its starting state, drops pending interrupts and
continues at the reset vector. -/
def reset (cpu : Cpu) : Program Cpu := do
  let target ← Program.readWord Interrupt.reset.vector
  return { cpu with
    registers := { sp := cpu.config.resetSp, pc := target, status := initialStatus }
    interrupts := cpu.interrupts.clear
    cycles := cpu.cycles + resetCycles }

theorem step_of_requested {cpu : Cpu} {kind : Interrupt} {interrupts : InterruptLines}
    (requested : cpu.interrupts.poll cpu.registers.status.irqDisable = (some kind, interrupts)) :
    cpu.step = (do
      let registers ← cpu.registers.enter kind
      return .ok ({ cpu with interrupts }.complete registers interruptCycles)) := by
  rw [step, requested]

theorem step_of_idle {cpu : Cpu}
    (idle : (cpu.interrupts.poll cpu.registers.status.irqDisable).1 = none) :
    cpu.step = cpu.runInstruction := by
  unfold step
  split
  · rename_i requested
    exact absurd idle (by simp [requested])
  · rfl

/-- What every outcome of a step satisfies: if the step completed, it took from two
to seven cycles and added them to the counter. -/
def Charged (cpu : Cpu) (outcome : Except Fault Completed) : Prop :=
  ∀ completed, outcome = .ok completed →
    2 ≤ completed.cycles ∧ completed.cycles ≤ 7 ∧
      completed.cpu.cycles = cpu.cycles + completed.cycles

theorem charged_complete (cpu start : Cpu) (registers : Registers) {cycles : Nat}
    (atLeast : 2 ≤ cycles) (atMost : cycles ≤ 7) (same : start.cycles = cpu.cycles) :
    cpu.Charged (.ok (start.complete registers cycles)) := by
  intro completed completes
  obtain rfl := Except.ok.inj completes
  exact ⟨atLeast, atMost, congrArg (· + cycles) same⟩

theorem charged_skip (cpu : Cpu) (opcode : Byte) : cpu.Charged (cpu.skip opcode) := by
  unfold skip
  split
  · intro completed completes
    exact absurd completes (by simp)
  · exact charged_complete cpu cpu _ (by decide) (by decide) rfl

theorem always_execute {opcode : Byte} {instruction : Instruction}
    (documented : decode opcode = some instruction) (decimalMode : Bool)
    (registers : Registers) :
    (instruction.execute decimalMode registers).Always fun outcome =>
      2 ≤ outcome.2 ∧ outcome.2 ≤ 7 := by
  refine Program.Always.of_rest (fun operand => ?_) _
  refine Program.Always.of_rest (fun after => ?_) _
  exact Instruction.totalCycles_bounds documented operand registers.status

theorem always_step (cpu : Cpu) : cpu.step.Always cpu.Charged := by
  unfold step
  split
  · refine Program.Always.of_rest (fun registers => ?_) _
    exact charged_complete cpu _ registers (by decide) (by decide) rfl
  · intro opcode
    change Program.Always cpu.Charged (match decode opcode with
      | none => _
      | some instruction => _)
    split
    · exact cpu.charged_skip opcode
    · rename_i documented
      refine Program.Always.bind (always_execute documented _ _) fun outcome bounds => ?_
      exact charged_complete cpu cpu outcome.1 bounds.1 bounds.2 rfl

theorem step_cycles {World : Type} {cpu : Cpu} {bus : Bus World} {completed : Completed}
    (completes : (cpu.step.run bus).1 = .ok completed) :
    2 ≤ completed.cycles ∧ completed.cycles ≤ 7 ∧
      completed.cpu.cycles = cpu.cycles + completed.cycles :=
  (always_step cpu).run bus completed completes

end Cpu

end Nmos6502
