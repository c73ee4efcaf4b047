import Nmos6502.Proofs.Machine.Likeness
import Nmos6502.Proofs.Machine.StatusBytes

/-!
# Starting again

A reset puts the processor into one state, whatever it did before, and keeps two things of its
past: the level of the NMI line, and the count of cycles.  Nothing that a machine does depends
on that count.  Machines that differ in it alone (`Machine.InStep`) have the same histories, and
the counts keep their difference, so machines that agree on the level and on all that a reset
does not touch cannot be told apart after it (`reset_forgets`).

The level is kept to know an edge: a line that is held high through a reset requests nothing,
and one that has come down does so when it rises.
-/

set_option autoImplicit false

namespace Nmos6502

namespace Machine

variable {World : Type}

/-! ## Machines in step -/

/-- The machines are equal, but the counter of the second is ahead by some cycles, or behind if
the lead is negative. -/
structure InStep (lead : Int) (machine other : Machine World) : Prop where
  registers : other.cpu.registers = machine.cpu.registers
  config : other.cpu.config = machine.cpu.config
  interrupts : other.cpu.interrupts = machine.cpu.interrupts
  cycles : (other.cpu.cycles : Int) = machine.cpu.cycles + lead
  bus : other.bus = machine.bus

def withCycles (machine : Machine World) (cycles : Nat) : Machine World :=
  { machine with cpu := { machine.cpu with cycles } }

variable {lead : Int} {machine other : Machine World}

theorem InStep.exists_cycles (inStep : InStep lead machine other) :
    ∃ cycles : Nat, other = machine.withCycles cycles ∧ cycles = machine.cpu.cycles + lead := by
  obtain ⟨⟨registers, config, interrupts, cycles⟩, bus⟩ := other
  obtain ⟨rfl, rfl, rfl, ahead, rfl⟩ := inStep
  exact ⟨cycles, rfl, ahead⟩

theorem InStep.of_spent {cycles : Nat} (ahead : (cycles : Int) = machine.cpu.cycles + lead)
    (spent : Nat) (registers : Registers) (interrupts : InterruptLines) (bus : Bus World) :
    InStep lead
      { cpu := { machine.cpu with registers, interrupts, cycles := machine.cpu.cycles + spent }
        bus }
      { cpu := { machine.cpu with registers, interrupts, cycles := cycles + spent }, bus } where
  registers := rfl
  config := rfl
  interrupts := rfl
  cycles := by
    dsimp only
    omega
  bus := rfl

theorem InStep.step (inStep : InStep lead machine other) :
    other.step.1 = machine.step.1 ∧ InStep lead machine.step.2 other.step.2 ∧
      other.cpu.step.accesses other.bus = machine.cpu.step.accesses machine.bus := by
  obtain ⟨cycles, rfl, ahead⟩ := inStep.exists_cycles
  obtain ⟨kind, requests⟩ | ⟨idle, undocumented⟩ | ⟨instruction, executes⟩ :=
    machine.requests_or_undocumented_or_executes
  · have also : (machine.withCycles cycles).cpu.Requests kind := by
      cases kind <;> exact requests
    rw [step_of_requests requests, step_of_requests also, accesses_of_requests requests,
      accesses_of_requests also]
    exact ⟨rfl, .of_spent ahead _ _ _ _, rfl⟩
  · have still : (machine.withCycles cycles).cpu.Idle := idle
    have also : decode ((machine.withCycles cycles).bus.read
        (machine.withCycles cycles).cpu.registers.pc).1 = none := undocumented
    rw [accesses_of_undocumented idle undocumented, accesses_of_undocumented still also]
    by_cases strict : machine.cpu.config.strict = true
    · rw [step_of_refused idle undocumented strict, step_of_refused still also strict]
      exact ⟨rfl, ⟨rfl, rfl, rfl, ahead, rfl⟩, rfl⟩
    · rw [step_of_skipped idle undocumented strict, step_of_skipped still also strict]
      exact ⟨rfl, .of_spent ahead _ _ _ _, rfl⟩
  · have also : (machine.withCycles cycles).Executes instruction := executes
    rw [step_of_executes executes, step_of_executes also, accesses_of_executes executes,
      accesses_of_executes also]
    exact ⟨rfl, .of_spent ahead _ _ _ _, rfl⟩

theorem likeness_inStep :
    Likeness (InStep lead : Machine World → Machine World → Prop) where
  stopRequested inStep := congrArg Bus.stopRequested inStep.bus
  clearStop inStep :=
    { inStep with bus := congrArg (fun bus => { bus with stopRequested := false }) inStep.bus }

theorem indifferent_to_cycles {moment : Moment World} (single : ¬ moment.request.IsRun) :
    moment.Indifferent (InStep lead) := by
  obtain ⟨machine, request⟩ := moment
  intro other inStep
  cases request with
  | run _ | runSteps _ => exact absurd trivial single
  | step =>
      obtain ⟨result, left, accesses⟩ := inStep.step
      exact ⟨⟨rfl, congrArg (Reply.ofExcept .cycles) result, accesses, inStep⟩, left⟩
  | reset =>
      obtain ⟨cycles, rfl, ahead⟩ := inStep.exists_cycles
      exact ⟨⟨rfl, rfl, rfl, inStep⟩, .of_spent ahead Cpu.resetCycles _ _ _⟩
  | _ =>
      obtain ⟨cycles, rfl, ahead⟩ := inStep.exists_cycles
      exact ⟨⟨rfl, rfl, rfl, inStep⟩, rfl, rfl, rfl, ahead, rfl⟩

theorem inStep_reset (config : other.cpu.config = machine.cpu.config)
    (bus : other.bus = machine.bus)
    (level : other.cpu.interrupts.nmiLine = machine.cpu.interrupts.nmiLine) :
    InStep (other.cpu.cycles - machine.cpu.cycles) machine.reset other.reset := by
  obtain ⟨⟨registers, otherConfig, ⟨nmiLine, nmiPending, irqLine⟩, cycles⟩, otherBus⟩ := other
  dsimp only at config bus level
  subst config bus level
  have ahead : (cycles : Int) = machine.cpu.cycles + (cycles - machine.cpu.cycles) := by omega
  exact .of_spent ahead Cpu.resetCycles _ _ _

/-! ## The NMI line -/

def Request.nmiLevel (level : Bool) : Request World → Bool
  | .setNmiLine asserted => asserted
  | _ => level

def levelAfter (level : Bool) (requests : List (Request World)) : Bool :=
  requests.foldl Request.nmiLevel level

/-- The NMI line is high, and no NMI is waiting to be served. -/
def HeldHigh (machine : Machine World) : Prop :=
  machine.cpu.interrupts.nmiLine = true ∧ machine.cpu.interrupts.nmiPending = false

theorem serves_nmi_iff : machine.cpu.Serves .nmi ↔ machine.cpu.interrupts.nmiPending = true :=
  Cpu.serves_iff_requests

theorem nmiLine_step (machine : Machine World) :
    machine.step.2.cpu.interrupts.nmiLine = machine.cpu.interrupts.nmiLine := by
  obtain idle | ⟨kind, requests⟩ := machine.cpu.idle_or_requests
  · rw [interrupts_step_of_idle idle]
  · rw [step_of_requests requests]
    rfl

theorem nmiLine_perform (machine : Machine World) (request : Request World) :
    (machine.perform request).2.cpu.interrupts.nmiLine =
      request.nmiLevel machine.cpu.interrupts.nmiLine := by
  cases request with
  | step => exact machine.nmiLine_step
  | run budget =>
      exact run_keeps (·.cpu.interrupts.nmiLine) nmiLine_step (fun _ => rfl) machine budget
  | runSteps count => exact runSteps_keeps (·.cpu.interrupts.nmiLine) nmiLine_step machine count
  | _ => rfl

theorem nmiLine_performAll (machine : Machine World) (requests : List (Request World)) :
    (machine.performAll requests).2.cpu.interrupts.nmiLine =
      levelAfter machine.cpu.interrupts.nmiLine requests := by
  induction requests generalizing machine with
  | nil => rfl
  | cons request rest inductionHypothesis =>
      refine (inductionHypothesis (machine.perform request).2).trans ?_
      rw [nmiLine_perform]
      rfl

theorem HeldHigh.not_serves (held : machine.HeldHigh) : ¬ machine.cpu.Serves .nmi := by
  rw [serves_nmi_iff, held.2]
  exact Bool.false_ne_true

theorem HeldHigh.step (held : machine.HeldHigh) : machine.step.2.HeldHigh := by
  refine ⟨machine.nmiLine_step.trans held.1, ?_⟩
  obtain idle | ⟨kind, requests⟩ := machine.cpu.idle_or_requests
  · rw [interrupts_step_of_idle idle]
    exact held.2
  · rw [step_of_requests requests]
    rfl

theorem HeldHigh.after {moment : Moment World} (held : moment.machine.HeldHigh)
    (single : ¬ moment.request.IsRun) (unpulsed : moment.request ≠ .triggerNmi)
    (unreleased : moment.request ≠ .setNmiLine false) : moment.after.HeldHigh := by
  obtain ⟨machine, request⟩ := moment
  obtain ⟨high, settled⟩ :
    machine.cpu.interrupts.nmiLine = true ∧ machine.cpu.interrupts.nmiPending = false := held
  cases request with
  | run _ | runSteps _ => exact absurd trivial single
  | step => exact HeldHigh.step ⟨high, settled⟩
  | reset => exact ⟨high, rfl⟩
  | triggerNmi => exact absurd rfl unpulsed
  | setNmiLine asserted =>
      cases asserted with
      | false => exact absurd rfl unreleased
      | true =>
          have unraised : (machine.cpu.interrupts.setNmiLine true).nmiPending = false := by
            simp [InterruptLines.setNmiLine, high, settled]
          exact ⟨rfl, unraised⟩
  | _ => exact ⟨high, settled⟩

theorem HeldHigh.moments {requests : List (Request World)} (held : machine.HeldHigh)
    (unpulsed : .triggerNmi ∉ requests) (unreleased : .setNmiLine false ∉ requests) :
    (∀ moment ∈ machine.moments requests, moment.machine.HeldHigh) ∧
      (machine.performAll requests).2.HeldHigh := by
  have unasked {moment : Moment World} (member : moment ∈ machine.moments requests)
      {request : Request World} (notStep : request ≠ .step) (absent : request ∉ requests) :
      moment.request ≠ request := by
    rintro rfl
    exact (request_of_mem_moments member).elim notStep absent
  obtain ⟨each, last⟩ := (machine.course_moments requests).invariant (motive := HeldHigh)
    (fun _ held => held)
    (fun moment member single held => held.after single
      (unasked member (by simp) unpulsed) (unasked member (by simp) unreleased)) held
  exact ⟨fun moment member => (each moment member).2, last⟩

theorem serves_of_rising (low : machine.cpu.interrupts.nmiLine = false) :
    (machine.setNmiLine true).cpu.Serves .nmi := by
  rw [serves_nmi_iff]
  simp [setNmiLine, drive, InterruptLines.setNmiLine, low]

/-! ## Resets -/

/-- What a reset does: it reads the two bytes of its vector and nothing else, starts the
processor there, drops the requests and takes seven cycles.  The level of the NMI line stays:
held high, the line requests nothing, and when it has come down and rises the next step serves
an NMI. -/
structure Restarts (machine : Machine World) : Prop where
  starts : ∃ low high,
    machine.cpu.reset.accesses machine.bus = [.read 0xFFFC low, .read 0xFFFD high] ∧
      machine.reset.cpu.registers =
        { a := 0, x := 0, y := 0, sp := machine.cpu.config.resetSp
          pc := Word.ofBytes high low, status := { irqDisable := true } }
  statusByte : machine.reset.statusByte = 0x24
  carries : machine.bus.Carries (machine.cpu.reset.accesses machine.bus) machine.reset.bus
  ram : machine.reset.bus.ram = machine.bus.ram
  config : machine.reset.cpu.config = machine.cpu.config
  interrupts : machine.reset.cpu.interrupts =
    { nmiLine := machine.cpu.interrupts.nmiLine, nmiPending := false, irqLine := false }
  cycles : machine.reset.cpu.cycles = machine.cpu.cycles + 7
  held : machine.cpu.interrupts.nmiLine = true → ∀ requests,
    .triggerNmi ∉ requests → .setNmiLine false ∉ requests →
      (∀ moment ∈ machine.reset.moments requests, ¬ moment.machine.cpu.Serves .nmi) ∧
        ¬ (machine.reset.performAll requests).2.cpu.Serves .nmi
  rises : ∀ requests, levelAfter machine.cpu.interrupts.nmiLine requests = false →
    ((machine.reset.performAll requests).2.setNmiLine true).cpu.Serves .nmi

theorem restarts (machine : Machine World) : machine.Restarts := by
  constructor
  case starts => exact ⟨_, _, rfl, rfl⟩
  case statusByte =>
    have started : Cpu.initialStatus.bits = 0x24 := by decide
    exact started
  case carries => exact machine.cpu.reset.carries_accesses machine.bus
  case ram => exact Program.ram_readWord 0xFFFC machine.bus
  case config => rfl
  case interrupts => rfl
  case cycles => rfl
  case held =>
    intro high requests unpulsed unreleased
    have held : machine.reset.HeldHigh := ⟨high, rfl⟩
    obtain ⟨each, last⟩ := held.moments unpulsed unreleased
    exact ⟨fun moment member => (each moment member).not_serves, last.not_serves⟩
  case rises =>
    intro requests low
    exact serves_of_rising ((machine.reset.nmiLine_performAll requests).trans low)

/-- After a reset two machines have the same history, moment by moment, if they had the same
configuration, bus and level of the NMI line; their registers, requests and counts of cycles
before it do not matter, but that the counts keep their difference. -/
theorem reset_forgets {machine other : Machine World}
    (config : other.cpu.config = machine.cpu.config) (bus : other.bus = machine.bus)
    (level : other.cpu.interrupts.nmiLine = machine.cpu.interrupts.nmiLine)
    (requests : List (Request World)) :
    SameCourse (InStep (other.cpu.cycles - machine.cpu.cycles))
        (machine.reset.performAll requests) (other.reset.performAll requests)
        (machine.reset.moments requests) (other.reset.moments requests) ∧
      ∀ machine : Machine World, machine.Restarts := by
  refine ⟨?_, restarts⟩
  exact performAll_alike likeness_inStep
    (fun _ member => indifferent_to_cycles (not_isRun_of_mem_moments member))
    (inStep_reset config bus level)

/-- A machine with a request of each kind, its NMI line held high. -/
def busyMachine : Machine Unit where
  cpu :=
    { registers := { a := 0x40, x := 0x80, sp := 0x10, pc := 0x1234, status := { decimal := true } }
      config := {}
      interrupts := { nmiLine := true, nmiPending := true, irqLine := true }
      cycles := 1000 }
  bus := { ram := Ram.zero.store 0 [0xE8, 0x58, 0x48], world := () }

def freshMachine : Machine Unit where
  cpu := { registers := {}, config := {}, interrupts := { nmiLine := true } }
  bus := busyMachine.bus

theorem busyMachine_restarts :
    (busyMachine.reset.performAll [.setNmiLine true, .runSteps 2, .step]).1 =
        [.done, .cycles 4, .cycles 3] ∧
      (busyMachine.reset.performAll [.setNmiLine true, .runSteps 2, .step]).2.cpu.cycles =
        1000 + 7 + 7 := by
  have config : busyMachine.cpu.config = freshMachine.cpu.config := rfl
  have level : busyMachine.cpu.interrupts.nmiLine = freshMachine.cpu.interrupts.nmiLine := rfl
  obtain ⟨⟨replies, -, last⟩, -⟩ :=
    reset_forgets config rfl level [.setNmiLine true, .runSteps 2, .step]
  have gets : (freshMachine.reset.performAll [.setNmiLine true, .runSteps 2, .step]).1 =
      [.done, .cycles 4, .cycles 3] := rfl
  have takes : (freshMachine.reset.performAll
      [.setNmiLine true, .runSteps 2, .step]).2.cpu.cycles = 7 + 7 := rfl
  refine ⟨replies.trans gets, ?_⟩
  have ahead := last.cycles
  rw [takes] at ahead
  exact Int.ofNat.inj ahead

end Machine

end Nmos6502
