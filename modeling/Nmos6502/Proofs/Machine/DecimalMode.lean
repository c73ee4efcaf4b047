import Nmos6502.Proofs.Instruction.DecimalFlag
import Nmos6502.Proofs.Machine.DecimalLaw
import Nmos6502.Proofs.Machine.Tolerance

/-!
# Decimal arithmetic on and off

The setting for decimal arithmetic is looked at by an addition or a subtraction with the decimal
flag set (`Machine.AtDecimal`), and by nothing else.  Up to the first of these, machines that
are equal but for the setting (`Machine.Switched`) cannot be told apart.

Where the setting is off, the flag is not looked at either.  A step with another value of it
(`Machine.withDecimal`) gives the same result and the same accesses.  What it leaves differs in
the flag and in the copy of the status that the step stored, if it stored one (`Machine.Inert`).
-/

set_option autoImplicit false

namespace Nmos6502

variable {World : Type}

def Config.withDecimalMode (decimalMode : Bool) (config : Config) : Config :=
  { config with decimalMode }

theorem Mnemonic.execute_decimalMode {mnemonic : Mnemonic} {registers : Registers}
    (binary : mnemonic = .adc ∨ mnemonic = .sbc → registers.status.decimal = false)
    (operand : Operand) (first second : Bool) :
    mnemonic.action.execute first operand registers =
      mnemonic.action.execute second operand registers := by
  cases mnemonic with
  | adc | sbc =>
      have clear := binary (by simp)
      simp only [action, Action.execute, clear, Bool.and_false]
  | _ => rfl

namespace Machine

variable {machine other : Machine World}

/-! ## The setting -/

def AtDecimal (machine : Machine World) : Prop :=
  (machine.RunsA .adc ∨ machine.RunsA .sbc) ∧ machine.cpu.registers.status.decimal = true

structure Switched (machine other : Machine World) : Prop where
  config_eq : other.cpu.config =
    machine.cpu.config.withDecimalMode other.cpu.config.decimalMode
  registers_eq : other.cpu.registers = machine.cpu.registers
  interrupts_eq : other.cpu.interrupts = machine.cpu.interrupts
  cycles_eq : other.cpu.cycles = machine.cpu.cycles
  bus_eq : other.bus = machine.bus

def switch (decimalMode : Bool) (machine : Machine World) : Machine World :=
  machine.retuned (Config.withDecimalMode decimalMode) 0

theorem Switched.eq_switch (switched : Switched machine other) :
    other = machine.switch other.cpu.config.decimalMode := by
  obtain ⟨⟨registers, config, interrupts, cycles⟩, bus⟩ := other
  obtain ⟨config_eq, rfl, rfl, rfl, rfl⟩ := switched
  dsimp only at config_eq
  rw [switch, retuned, ← config_eq]
  rfl

theorem switched_switch (decimalMode : Bool) (machine : Machine World) :
    Switched machine (machine.switch decimalMode) :=
  ⟨rfl, rfl, rfl, rfl, rfl⟩

theorem step_switch (ordinary : ¬ machine.AtDecimal) (decimalMode : Bool) :
    machine.Indifferent (Config.withDecimalMode decimalMode) 0 ∧
      (machine.switch decimalMode).cpu.step.accesses machine.bus =
        machine.cpu.step.accesses machine.bus := by
  obtain ⟨kind, requests⟩ | ⟨idle, undocumented⟩ | ⟨instruction, executes⟩ :=
    machine.requests_or_undocumented_or_executes
  · have also : (machine.switch decimalMode).cpu.Requests kind := by
      cases kind <;> exact requests
    refine ⟨(step_of_requests also).trans ?_, (accesses_of_requests also).trans ?_⟩
    · rw [step_of_requests requests]
      rfl
    · rw [accesses_of_requests requests]
      rfl
  · have still : (machine.switch decimalMode).cpu.Idle := idle
    have also : decode ((machine.switch decimalMode).bus.read
        (machine.switch decimalMode).cpu.registers.pc).1 = none := undocumented
    refine ⟨?_, (accesses_of_undocumented still also).trans ?_⟩
    · by_cases strict : machine.cpu.config.strict = true
      · refine (step_of_refused still also strict).trans ?_
        rw [step_of_refused idle undocumented strict]
        rfl
      · refine (step_of_skipped still also strict).trans ?_
        rw [step_of_skipped idle undocumented strict]
        rfl
    · rw [accesses_of_undocumented idle undocumented]
      rfl
  · have also : (machine.switch decimalMode).Executes instruction := executes
    have acts : (machine.switch decimalMode).acts instruction = machine.acts instruction := by
      refine Mnemonic.execute_decimalMode (fun arithmetic => ?_) _ _ _
      refine Bool.eq_false_of_not_eq_true fun decimal => ordinary ⟨?_, decimal⟩
      exact arithmetic.imp (⟨instruction, executes, ·⟩) (⟨instruction, executes, ·⟩)
    refine ⟨(step_of_executes also).trans ?_, (accesses_of_executes also).trans ?_⟩
    · rw [step_of_executes executes, acted, acted, acts]
      rfl
    · rw [accesses_of_executes executes, acts]
      rfl

theorem performAll_switched (switched : Switched machine other) {requests : List (Request World)}
    (each : machine.EachStep (fun stepping => ¬ stepping.AtDecimal) requests) :
    (other.performAll requests).1 = (machine.performAll requests).1.map
        (Reply.retuned (Config.withDecimalMode other.cpu.config.decimalMode)) ∧
      Switched (machine.performAll requests).2 (other.performAll requests).2 := by
  have same := switched.eq_switch
  generalize other.cpu.config.decimalMode = decimalMode at same ⊢
  subst same
  have keepsSp (config : Config) : (config.withDecimalMode decimalMode).resetSp = config.resetSp :=
    rfl
  have steady := each.imp fun stepping ordinary => (step_switch ordinary decimalMode).1
  rw [switch, performAll_retuned keepsSp steady]
  exact ⟨rfl, switched_switch decimalMode _⟩

/-! ## The flag -/

def withDecimal (decimal : Bool) (machine : Machine World) : Machine World :=
  machine.setRegisters (machine.cpu.registers.withDecimal decimal)

inductive StoresStatusAt (machine : Machine World) : Word → Prop where
  | served {kind : Interrupt} (requests : machine.cpu.Requests kind) :
      StoresStatusAt machine (Registers.stackCell (machine.cpu.registers.sp - 2))
  | executed {instruction : Instruction} (executes : machine.Executes instruction) {cell : Word}
      (stores : instruction.mnemonic.statusCell machine.cpu.registers = some cell) :
      StoresStatusAt machine cell

/-- A step of the second machine goes like that of the first, but for the decimal flag and the
copy of the status that the step stores. -/
structure Inert (machine other : Machine World) : Prop where
  result : other.step.1 = machine.step.1
  transfers : List.Forall₂ (Access.Marked machine.StoresStatusAt)
    (machine.cpu.step.accesses machine.bus) (other.cpu.step.accesses other.bus)
  cpu : ∃ decimal, other.step.2.cpu = (machine.step.2.withDecimal decimal).cpu
  bus : Bus.Marked machine.StoresStatusAt machine.step.2.bus other.step.2.bus

theorem Inert.of_follows {program following : Program Registers} {bus : Bus World} {spent : Nat}
    {interrupts : InterruptLines} {cycles : Nat}
    (step : machine.step =
      (.ok spent,
        { cpu := { machine.cpu with registers := (program.run bus).1, interrupts, cycles }
          bus := (program.run bus).2 }))
    (also : other.step =
      (.ok spent,
        { cpu := { machine.cpu with registers := (following.run bus).1, interrupts, cycles }
          bus := (following.run bus).2 }))
    (follows : Program.Follows machine.StoresStatusAt bus program following)
    (transfers : List.Forall₂ (Access.Marked machine.StoresStatusAt)
      (machine.cpu.step.accesses machine.bus) (other.cpu.step.accesses other.bus)) :
    machine.Inert other := by
  obtain ⟨⟨decimal, registers⟩, marked, -⟩ := follows
  constructor
  case result => rw [step, also]
  case transfers => exact transfers
  case cpu =>
    rw [step, also, registers]
    exact ⟨decimal, rfl⟩
  case bus =>
    rw [step, also]
    exact marked

theorem inert_withDecimal (off : machine.cpu.config.decimalMode = false) (decimal : Bool)
    (blind : ∀ cell, machine.StoresStatusAt cell → machine.bus.Blind cell) :
    machine.Inert (machine.withDecimal decimal) := by
  obtain ⟨kind, requests⟩ | ⟨idle, undocumented⟩ | ⟨instruction, executes⟩ :=
    machine.requests_or_undocumented_or_executes
  · have also : (machine.withDecimal decimal).cpu.Requests kind := by
      cases kind <;> exact requests
    have stores := StoresStatusAt.served requests
    have follows : Program.Follows machine.StoresStatusAt machine.bus _ _ :=
      machine.cpu.registers.enter_follows decimal kind (blind _ stores) stores
    refine .of_follows (step_of_requests requests) (step_of_requests also) follows ?_
    rw [accesses_of_requests requests, accesses_of_requests also]
    exact follows.transfers
  · have still : (machine.withDecimal decimal).cpu.Idle := idle
    have also : decode ((machine.withDecimal decimal).bus.read
        (machine.withDecimal decimal).cpu.registers.pc).1 = none := undocumented
    have same : (machine.withDecimal decimal).step =
        (machine.step.1, machine.step.2.withDecimal decimal) := by
      by_cases strict : machine.cpu.config.strict = true
      · rw [step_of_refused idle undocumented strict, step_of_refused still also strict]
        rfl
      · rw [step_of_skipped idle undocumented strict, step_of_skipped still also strict]
        rfl
    constructor
    case result => rw [same]
    case transfers =>
      rw [accesses_of_undocumented idle undocumented, accesses_of_undocumented still also]
      exact Access.forall_marked_same _ _
    case cpu =>
      rw [same]
      exact ⟨decimal, rfl⟩
    case bus =>
      rw [same]
      exact .refl _ _
  · have also : (machine.withDecimal decimal).Executes instruction := executes
    have located : (machine.withDecimal decimal).located instruction.mode =
        machine.located instruction.mode :=
      congrArg (Program.run · machine.fetched)
        (Addressing.resolve_withDecimal instruction.mode (machine.cpu.registers.advance 1) decimal)
    have cycles : (machine.withDecimal decimal).cyclesOf instruction =
        machine.cyclesOf instruction := by
      rw [cyclesOf, located]
      exact instruction.totalCycles_withDecimal ..
    have keeps : (machine.located instruction.mode).2.regions = machine.bus.regions :=
      (Program.regions_run _ _).trans (machine.bus.regions_read _)
    have follows : Program.Follows machine.StoresStatusAt (machine.located instruction.mode).2
        (machine.acts instruction) ((machine.withDecimal decimal).acts instruction) := by
      have mode : (machine.withDecimal decimal).cpu.config.decimalMode = false := off
      rw [acts, acts, located, off, mode]
      refine instruction.mnemonic.execute_follows _ (machine.behind instruction.mode) decimal ?_
      intro cell stores
      have here := StoresStatusAt.executed executes stores
      exact ⟨(Bus.blind_congr keeps).mpr (blind cell here), here⟩
    have step := step_of_executes also
    rw [acted, located, cycles] at step
    refine .of_follows (step_of_executes executes) step follows ?_
    rw [accesses_of_executes executes, accesses_of_executes also, located]
    refine .cons (.same _) (List.rel_append ?_ follows.transfers)
    have resolved := congrArg (Program.accesses · machine.fetched)
      (Addressing.resolve_withDecimal instruction.mode (machine.cpu.registers.advance 1) decimal)
    exact resolved ▸ Access.forall_marked_same _ _

theorem not_storesStatusAt_of_arithmetic (runs : machine.RunsA .adc ∨ machine.RunsA .sbc)
    (cell : Word) : ¬ machine.StoresStatusAt cell := by
  obtain ⟨instruction, executes, arithmetic⟩ : ∃ instruction, machine.Executes instruction ∧
      (instruction.mnemonic = .adc ∨ instruction.mnemonic = .sbc) := by
    obtain ⟨instruction, executes, named⟩ | ⟨instruction, executes, named⟩ := runs
    · exact ⟨instruction, executes, Or.inl named⟩
    · exact ⟨instruction, executes, Or.inr named⟩
  rintro (requests | ⟨also, stores⟩)
  · -- A step that serves an interrupt runs no instruction.
    have idle := Cpu.idle_iff_poll.mp executes.1
    rw [Cpu.poll_of_requests requests] at idle
    cases idle
  · obtain rfl := executes.unique also
    obtain named | named := arithmetic <;> rw [named] at stores <;> cases stores

theorem decimal_step_of_arithmetic (runs : machine.RunsA .adc ∨ machine.RunsA .sbc) :
    machine.step.2.cpu.registers.status.decimal = machine.cpu.registers.status.decimal := by
  obtain adds | subtracts := runs
  · have runs : machine.RunsA Alu.Operation.addition.mnemonic := adds
    exact (accumulates runs).decimal
  · have runs : machine.RunsA Alu.Operation.subtraction.mnemonic := subtracts
    exact (accumulates runs).decimal

theorem registers_withDecimal_of_arithmetic (off : machine.cpu.config.decimalMode = false)
    (decimal : Bool) (runs : machine.RunsA .adc ∨ machine.RunsA .sbc) :
    (machine.withDecimal decimal).step.2.cpu.registers =
      machine.step.2.cpu.registers.withDecimal decimal := by
  obtain ⟨flag, cpu⟩ := (inert_withDecimal off decimal fun cell stores =>
    absurd stores (not_storesStatusAt_of_arithmetic runs cell)).cpu
  have registers := congrArg Cpu.registers cpu
  have also : (machine.withDecimal decimal).RunsA .adc ∨ (machine.withDecimal decimal).RunsA .sbc :=
    runs
  have kept := decimal_step_of_arithmetic also
  rw [registers] at kept
  obtain rfl : flag = decimal := kept
  exact registers

/-- The setting for decimal arithmetic matters to an addition or a subtraction with the decimal
flag set and to nothing else.  Where it is off the flag does not matter to them either, and a
step takes it along as a bit of the status. -/
theorem decimal_only_in_arithmetic {machine other : Machine World}
    (switched : Switched machine other) :
    (∀ requests, machine.EachStep (fun stepping => ¬ stepping.AtDecimal) requests →
        (other.performAll requests).1 = (machine.performAll requests).1.map
            (Reply.retuned (Config.withDecimalMode other.cpu.config.decimalMode)) ∧
          Switched (machine.performAll requests).2 (other.performAll requests).2) ∧
      (¬ machine.AtDecimal →
        other.cpu.step.accesses other.bus = machine.cpu.step.accesses machine.bus) ∧
      ∀ machine : Machine World, machine.cpu.config.decimalMode = false → ∀ decimal,
        ((∀ cell, machine.StoresStatusAt cell → machine.bus.Blind cell) →
            machine.Inert (machine.withDecimal decimal)) ∧
          (machine.RunsA .adc ∨ machine.RunsA .sbc →
            (machine.withDecimal decimal).step.2.cpu.registers =
                machine.step.2.cpu.registers.withDecimal decimal ∧
              machine.step.2.cpu.registers.status.decimal =
                machine.cpu.registers.status.decimal) := by
  refine ⟨fun requests => performAll_switched switched, ?_, ?_⟩
  · intro ordinary
    rw [switched.eq_switch]
    exact (step_switch ordinary _).2
  · intro machine off decimal
    refine ⟨inert_withDecimal off decimal, fun runs => ⟨?_, decimal_step_of_arithmetic runs⟩⟩
    exact registers_withDecimal_of_arithmetic off decimal runs

def storingMachine : Machine Unit where
  cpu := { registers := { sp := 0xFF }, config := { decimalMode := false } }
  bus := { ram := Ram.zero.store 0 [0x08], world := () }

theorem storingMachine_inert :
    ((storingMachine.switch true).performAll [.step]).1 = [.cycles 3] ∧
      storingMachine.Inert (storingMachine.withDecimal true) ∧
      (((subtractingMachine ⟨0x10, 0x01⟩ true false).switch false).withDecimal
        true).step.2.cpu.registers.a = 0x0F := by
  obtain ⟨history, -, inert⟩ := decimal_only_in_arithmetic (switched_switch true storingMachine)
  have ordinary : storingMachine.EachStep (fun stepping => ¬ stepping.AtDecimal) [.step] := by
    refine ⟨?_, trivial⟩
    rintro _ (_ | _) ⟨-, set⟩
    cases set
  have uncovered (cell : Word) (_ : storingMachine.StoresStatusAt cell) :
      storingMachine.bus.Blind cell := by
    intro handler owner
    cases owner
  have executes : ((subtractingMachine ⟨0x10, 0x01⟩ true false).switch false).Executes
      immediateSubtraction := ⟨⟨rfl, Or.inl rfl⟩, by decide +kernel⟩
  obtain ⟨registers, -⟩ := (inert _ rfl true).2 (Or.inr ⟨_, executes, rfl⟩)
  refine ⟨(history [.step] ordinary).1.trans ?_, (inert _ rfl true).1 uncovered, ?_⟩
  · decide +kernel
  · rw [registers]
    decide +kernel

end Machine

end Nmos6502
