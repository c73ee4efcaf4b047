import Nmos6502.Machine.Basic
import Nmos6502.Proofs.Bus.Transfers

/-!
# The stages of a step

A step serves an interrupt or runs one instruction, and which of the two is
decided by the interrupt lines and the interrupt-disable flag alone: exactly one of
`Cpu.Idle` and `Cpu.Requests` holds.  An instruction is fetched, its operand is
located, and then it acts.  `Machine.step_of_requests` and
`Machine.step_of_executes` give the whole machine after either kind of step from
what these stages left.
-/

set_option autoImplicit false

namespace Nmos6502

variable {World : Type}

namespace Cpu

/-- The interrupt that the next step serves: a latched NMI, or else an IRQ whose
line is asserted while interrupts are enabled. -/
def Requests (cpu : Cpu) : Interrupt → Prop
  | .nmi => cpu.interrupts.nmiPending = true
  | .irq =>
      cpu.interrupts.nmiPending = false ∧ cpu.interrupts.irqLine = true ∧
        cpu.registers.status.irqDisable = false
  | .reset | .brk => False

def Idle (cpu : Cpu) : Prop :=
  cpu.interrupts.nmiPending = false ∧
    (cpu.interrupts.irqLine = false ∨ cpu.registers.status.irqDisable = true)

instance (cpu : Cpu) : Decidable cpu.Idle := inferInstanceAs (Decidable (_ ∧ _))

def linesTaken (cpu : Cpu) : InterruptLines := { cpu.interrupts with nmiPending := false }

theorem linesTaken_of_unlatched {cpu : Cpu} (unlatched : cpu.interrupts.nmiPending = false) :
    cpu.linesTaken = cpu.interrupts := by
  rw [linesTaken, ← unlatched]

theorem poll_of_requests {cpu : Cpu} {kind : Interrupt} (requests : cpu.Requests kind) :
    cpu.interrupts.poll cpu.registers.status.irqDisable = (some kind, cpu.linesTaken) := by
  cases kind with
  | nmi => exact InterruptLines.poll_of_pending _ requests
  | irq =>
      obtain ⟨unlatched, asserted, enabled⟩ := requests
      simp [InterruptLines.poll, unlatched, asserted, enabled, linesTaken_of_unlatched unlatched]
  | reset => exact requests.elim
  | brk => exact requests.elim

theorem idle_iff_poll {cpu : Cpu} :
    cpu.Idle ↔ (cpu.interrupts.poll cpu.registers.status.irqDisable).1 = none :=
  InterruptLines.poll_eq_none_iff.symm

theorem idle_or_requests (cpu : Cpu) : cpu.Idle ∨ ∃ kind, cpu.Requests kind := by
  cases latched : cpu.interrupts.nmiPending with
  | true => exact Or.inr ⟨.nmi, latched⟩
  | false =>
      cases asserted : cpu.interrupts.irqLine with
      | false => exact Or.inl ⟨latched, Or.inl asserted⟩
      | true =>
          cases masked : cpu.registers.status.irqDisable with
          | true => exact Or.inl ⟨latched, Or.inr masked⟩
          | false => exact Or.inr ⟨.irq, latched, asserted, masked⟩

theorem Requests.hardware {cpu : Cpu} {kind : Interrupt} (requests : cpu.Requests kind) :
    (kind == .brk) = false := by
  cases kind with
  | brk => exact requests.elim
  | nmi | irq | reset => rfl

theorem step_of_requests {cpu : Cpu} {kind : Interrupt} (requests : cpu.Requests kind) :
    cpu.step = (cpu.registers.enter kind).bind fun registers =>
      .done (.ok ({ cpu with interrupts := cpu.linesTaken }.complete registers interruptCycles)) :=
  step_of_requested (poll_of_requests requests)

theorem Idle.step {cpu : Cpu} (idle : cpu.Idle) : cpu.step = cpu.runInstruction :=
  step_of_idle (idle_iff_poll.mp idle)

end Cpu

namespace Machine

/-- The next step runs this documented instruction: no interrupt is served, and the
bus answers the fetch with the opcode of the instruction. -/
def Executes (machine : Machine World) (instruction : Instruction) : Prop :=
  machine.cpu.Idle ∧
    decode (machine.bus.read machine.cpu.registers.pc).1 = some instruction

theorem Executes.unique {machine : Machine World} {first second : Instruction}
    (one : machine.Executes first) (other : machine.Executes second) : first = second :=
  Option.some.inj (one.2.symm.trans other.2)

/-- A step serves an interrupt, meets an undocumented opcode or runs an instruction. -/
theorem requests_or_undocumented_or_executes (machine : Machine World) :
    (∃ kind, machine.cpu.Requests kind) ∨
      (machine.cpu.Idle ∧ decode (machine.bus.read machine.cpu.registers.pc).1 = none) ∨
      ∃ instruction, machine.Executes instruction := by
  obtain idle | requests := machine.cpu.idle_or_requests
  · cases opcode : decode (machine.bus.read machine.cpu.registers.pc).1 with
    | none => exact Or.inr (Or.inl ⟨idle, rfl⟩)
    | some instruction => exact Or.inr (Or.inr ⟨instruction, idle, opcode⟩)
  · exact Or.inl requests

def fetched (machine : Machine World) : Bus World :=
  (machine.bus.read machine.cpu.registers.pc).2

def located (machine : Machine World) (mode : Mode) : Operand × Bus World :=
  (Addressing.resolve mode (machine.cpu.registers.advance 1)).run machine.fetched

def behind (machine : Machine World) (mode : Mode) : Registers :=
  (machine.cpu.registers.advance 1).advance (BitVec.ofNat 16 mode.operandLength)

theorem fetched_of_plain {machine : Machine World}
    (plain : machine.bus.Plain machine.cpu.registers.pc) : machine.fetched = machine.bus := by
  rw [fetched, plain.read]

theorem behind_eq (machine : Machine World) (mode : Mode) :
    machine.behind mode =
      { machine.cpu.registers with
        pc := machine.cpu.registers.pc + BitVec.ofNat 16 (1 + mode.operandLength) } := by
  rw [behind, Registers.advance, Registers.advance, BitVec.ofNat_add, ← BitVec.add_assoc]
  rfl

def acts (machine : Machine World) (instruction : Instruction) : Program Registers :=
  instruction.mnemonic.action.execute machine.cpu.config.decimalMode
    (machine.located instruction.mode).1 (machine.behind instruction.mode)

def acted (machine : Machine World) (instruction : Instruction) : Registers × Bus World :=
  (machine.acts instruction).run (machine.located instruction.mode).2

def cyclesOf (machine : Machine World) (instruction : Instruction) : Nat :=
  instruction.totalCycles (machine.located instruction.mode).1 machine.cpu.registers.status

theorem runInstruction_of_documented {cpu : Cpu} {bus : Bus World} {instruction : Instruction}
    (documented : decode (bus.read cpu.registers.pc).1 = some instruction) :
    cpu.runInstruction.run bus =
        (((instruction.execute cpu.config.decimalMode cpu.registers).bind fun outcome =>
          .done (.ok (cpu.complete outcome.1 outcome.2))).run (bus.read cpu.registers.pc).2) ∧
      cpu.runInstruction.accesses bus =
        .read cpu.registers.pc (bus.read cpu.registers.pc).1 ::
          ((instruction.execute cpu.config.decimalMode cpu.registers).bind fun outcome =>
            (.done (.ok (cpu.complete outcome.1 outcome.2)) :
              Program (Except Fault Completed))).accesses (bus.read cpu.registers.pc).2 := by
  simp [Cpu.runInstruction, Program.run_bind, Program.accesses_bind, documented]

theorem step_of_requests {machine : Machine World} {kind : Interrupt}
    (requests : machine.cpu.Requests kind) :
    machine.step =
      (.ok Cpu.interruptCycles,
        { cpu :=
            { machine.cpu with
              registers := ((machine.cpu.registers.enter kind).run machine.bus).1
              interrupts := machine.cpu.linesTaken
              cycles := machine.cpu.cycles + Cpu.interruptCycles }
          bus := ((machine.cpu.registers.enter kind).run machine.bus).2 }) := by
  simp [step, Cpu.step_of_requests requests, Program.run_bind, Cpu.complete]

theorem accesses_of_requests {machine : Machine World} {kind : Interrupt}
    (requests : machine.cpu.Requests kind) :
    machine.cpu.step.accesses machine.bus =
      (machine.cpu.registers.enter kind).accesses machine.bus := by
  simp [Cpu.step_of_requests requests, Program.accesses_bind]

theorem step_of_executes {machine : Machine World} {instruction : Instruction}
    (executes : machine.Executes instruction) :
    machine.step =
      (.ok (machine.cyclesOf instruction),
        { cpu :=
            { machine.cpu with
              registers := (machine.acted instruction).1
              cycles := machine.cpu.cycles + machine.cyclesOf instruction }
          bus := (machine.acted instruction).2 }) := by
  obtain ⟨idle, documented⟩ := executes
  simp only [step, idle.step, (runInstruction_of_documented documented).1]
  simp [Instruction.execute, Program.run_bind, Cpu.complete, acted, acts, cyclesOf, located,
    behind, fetched]

theorem accesses_of_executes {machine : Machine World} {instruction : Instruction}
    (executes : machine.Executes instruction) :
    machine.cpu.step.accesses machine.bus =
      .read machine.cpu.registers.pc (machine.bus.read machine.cpu.registers.pc).1 ::
        ((Addressing.resolve instruction.mode (machine.cpu.registers.advance 1)).accesses
            machine.fetched ++
          (machine.acts instruction).accesses (machine.located instruction.mode).2) := by
  obtain ⟨idle, documented⟩ := executes
  rw [idle.step, (runInstruction_of_documented documented).2]
  simp [Instruction.execute, Program.run_bind, Program.accesses_bind, acts, located, behind,
    fetched]

/-- At an undocumented opcode a strict processor refuses the step, and any other passes
over the byte. -/
theorem step_of_undocumented {machine : Machine World} (idle : machine.cpu.Idle)
    (undocumented : decode (machine.bus.read machine.cpu.registers.pc).1 = none) :
    machine.step =
      if machine.cpu.config.strict then
        (.error (.unknownOpcode (machine.bus.read machine.cpu.registers.pc).1
          machine.cpu.registers.pc), { machine with bus := machine.fetched })
      else
        (.ok Cpu.skipCycles,
          { cpu :=
              { machine.cpu with
                registers := machine.cpu.registers.advance 1
                cycles := machine.cpu.cycles + Cpu.skipCycles }
            bus := machine.fetched }) := by
  have skips : machine.cpu.runInstruction.run machine.bus =
      (machine.cpu.skip (machine.bus.read machine.cpu.registers.pc).1, machine.fetched) := by
    simp [Cpu.runInstruction, Program.run_bind, undocumented, fetched]
  rw [step, idle.step, skips, Cpu.skip]
  by_cases strict : machine.cpu.config.strict = true
  · rw [if_pos strict, if_pos strict]
  · rw [if_neg strict, if_neg strict]
    rfl

theorem step_of_refused {machine : Machine World} (idle : machine.cpu.Idle)
    (undocumented : decode (machine.bus.read machine.cpu.registers.pc).1 = none)
    (strict : machine.cpu.config.strict = true) :
    machine.step =
      (.error (.unknownOpcode (machine.bus.read machine.cpu.registers.pc).1
        machine.cpu.registers.pc), { machine with bus := machine.fetched }) := by
  rw [step_of_undocumented idle undocumented, if_pos strict]

theorem step_of_skipped {machine : Machine World} (idle : machine.cpu.Idle)
    (undocumented : decode (machine.bus.read machine.cpu.registers.pc).1 = none)
    (tolerant : ¬ machine.cpu.config.strict = true) :
    machine.step =
      (.ok Cpu.skipCycles,
        { cpu :=
            { machine.cpu with
              registers := machine.cpu.registers.advance 1
              cycles := machine.cpu.cycles + Cpu.skipCycles }
          bus := machine.fetched }) := by
  rw [step_of_undocumented idle undocumented, if_neg tolerant]

theorem accesses_of_undocumented {machine : Machine World} (idle : machine.cpu.Idle)
    (undocumented : decode (machine.bus.read machine.cpu.registers.pc).1 = none) :
    machine.cpu.step.accesses machine.bus =
      [.read machine.cpu.registers.pc (machine.bus.read machine.cpu.registers.pc).1] := by
  rw [idle.step]
  simp [Cpu.runInstruction, Program.accesses_bind, undocumented]

theorem interrupts_step_of_idle {machine : Machine World} (idle : machine.cpu.Idle) :
    machine.step.2.cpu.interrupts = machine.cpu.interrupts := by
  cases opcode : decode (machine.bus.read machine.cpu.registers.pc).1 with
  | none =>
      rw [step_of_undocumented idle opcode]
      split <;> rfl
  | some instruction => rw [step_of_executes ⟨idle, opcode⟩]

theorem bus_step (machine : Machine World) :
    machine.step.2.bus = (machine.cpu.step.run machine.bus).2 := by
  unfold step
  split <;> simp_all

@[simp] theorem regions_step (machine : Machine World) :
    machine.step.2.bus.regions = machine.bus.regions := by
  rw [bus_step, Program.regions_run]

end Machine

end Nmos6502
