import Nmos6502.Proofs.Machine.Budget

/-!
# Refused steps

A step is refused in one situation only (`Machine.Refuses`): nothing is to be served, the
configuration is strict, and the byte at the program counter is no documented opcode.  The
fetch of that byte is then all that happened (`Machine.Unchanged`), and a run or a counted
run that fails is its completed steps and one such step (`Machine.FailsAfter`).  From memory
the same byte is fetched again, so the failure repeats itself.
-/

set_option autoImplicit false

namespace Nmos6502

namespace Machine

variable {World : Type}

def opcode (machine : Machine World) : Byte :=
  (machine.bus.read machine.cpu.registers.pc).1

structure Refuses (machine : Machine World) : Prop where
  unlatched : machine.cpu.interrupts.nmiPending = false
  unserved :
    machine.cpu.interrupts.irqLine = false ∨ machine.cpu.registers.status.irqDisable = true
  strict : machine.cpu.config.strict = true
  undocumented : decode machine.opcode = none

/-- The fetch is all that happened, and the processor has not noticed it. -/
structure Unchanged (machine last : Machine World) : Prop where
  registers : last.cpu.registers = machine.cpu.registers
  cycles : last.cpu.cycles = machine.cpu.cycles
  config : last.cpu.config = machine.cpu.config
  interrupts : last.cpu.interrupts = machine.cpu.interrupts
  ram : last.bus.ram = machine.bus.ram
  regions : last.bus.regions = machine.bus.regions
  bus : last.bus = (machine.bus.read machine.cpu.registers.pc).2
  accesses :
    machine.cpu.step.accesses machine.bus = [.read machine.cpu.registers.pc machine.opcode]

/-- After a number of completed steps the next one was refused, and this is what it left. -/
structure FailsAfter (machine : Machine World) (count : Nat) (fault : Fault)
    (last : Machine World) : Prop where
  completes : machine.Completes count
  refused : (machine.after count).step = (.error fault, last)
  unchanged : (machine.after count).Unchanged last
  cycles : last.cpu.cycles = machine.cpu.cycles + machine.spent count
  fault_eq : fault = .unknownOpcode (machine.after count).opcode last.cpu.registers.pc
  repeats : last.bus.Plain last.cpu.registers.pc →
    last.step = (.error fault, last) ∧ ∀ more, 0 < more → last.runSteps more = (.error fault, last)

theorem Refuses.idle {machine : Machine World} (refuses : machine.Refuses) : machine.cpu.Idle :=
  ⟨refuses.unlatched, refuses.unserved⟩

theorem Refuses.step {machine : Machine World} (refuses : machine.Refuses) :
    machine.step =
      (.error (.unknownOpcode machine.opcode machine.cpu.registers.pc),
        { machine with bus := machine.fetched }) := by
  rw [step_of_undocumented refuses.idle refuses.undocumented, if_pos refuses.strict]
  rfl

/-- An interrupt is always served, a documented instruction always completes, and a
tolerant processor passes over any other byte. -/
theorem refuses_of_error {machine : Machine World} {fault : Fault}
    (failed : machine.step.1 = .error fault) : machine.Refuses := by
  obtain idle | ⟨kind, requests⟩ := machine.cpu.idle_or_requests
  · cases documented : decode (machine.bus.read machine.cpu.registers.pc).1 with
    | some instruction =>
        rw [step_of_executes ⟨idle, documented⟩] at failed
        cases failed
    | none =>
        by_cases strict : machine.cpu.config.strict = true
        · exact ⟨idle.1, idle.2, strict, documented⟩
        · rw [step_of_undocumented idle documented, if_neg strict] at failed
          cases failed
  · rw [step_of_requests requests] at failed
    cases failed

theorem Refuses.unchanged {machine : Machine World} (refuses : machine.Refuses) :
    machine.Unchanged machine.step.2 := by
  have accesses := accesses_of_undocumented refuses.idle refuses.undocumented
  rw [refuses.step]
  exact
    { registers := rfl
      cycles := rfl
      config := rfl
      interrupts := rfl
      ram := machine.bus.ram_read _
      regions := machine.bus.regions_read _
      bus := rfl
      accesses := accesses }

theorem Refuses.repeats {machine : Machine World} (refuses : machine.Refuses)
    (plain : machine.bus.Plain machine.cpu.registers.pc) :
    machine.step =
      (.error (.unknownOpcode machine.opcode machine.cpu.registers.pc), machine) := by
  rw [refuses.step, fetched, plain.read]

theorem FailsAt.failsAfter {machine : Machine World} {count : Nat} {fault : Fault}
    (fails : machine.FailsAt count fault) :
    machine.FailsAfter count fault (machine.after (count + 1)) := by
  have refuses := refuses_of_error fails.refused
  have unchanged : (machine.after count).Unchanged (machine.after (count + 1)) :=
    refuses.unchanged
  have reported : fault =
      .unknownOpcode (machine.after count).opcode (machine.after count).cpu.registers.pc :=
    Except.error.inj (fails.refused.symm.trans (congrArg Prod.fst refuses.step))
  constructor
  case completes => exact fails.completes
  case refused => exact fails.step
  case unchanged => exact unchanged
  case cycles => rw [unchanged.cycles, fails.completes.cycles_after]
  case fault_eq => rw [unchanged.registers]; exact reported
  case repeats =>
    intro plain
    rw [unchanged.registers, Bus.plain_congr unchanged.regions] at plain
    -- Memory gives the byte and keeps it, so the machine is still the one before the fetch.
    have still : machine.after (count + 1) = machine.after count :=
      congrArg Prod.snd (refuses.repeats plain)
    have again : (machine.after (count + 1)).step = (.error fault, machine.after (count + 1)) := by
      have failed := fails.step
      rwa [← still] at failed
    refine ⟨again, ?_⟩
    intro more positive
    have failsAtOnce : (machine.after (count + 1)).FailsAt 0 fault :=
      ⟨.zero _, congrArg Prod.fst again⟩
    rw [runSteps_of_failsAt failsAtOnce positive]
    have unmoved : (machine.after (count + 1)).step.2 = machine.after (count + 1) := by
      rw [again]
    exact Prod.ext rfl unmoved

/-- A step fails exactly if an undocumented opcode stands in its way, and the failure is
atomic.  A run or a counted run that fails leaves its completed steps and the refused one;
where memory holds the offending byte, going on fails in the same way. -/
theorem failure_is_atomic (machine : Machine World) :
    ((∃ fault, machine.step.1 = .error fault) ↔ machine.Refuses) ∧
      (∀ fault, machine.step.1 = .error fault →
        fault = .unknownOpcode machine.opcode machine.cpu.registers.pc ∧
          machine.Unchanged machine.step.2) ∧
      (∀ budget fault last, machine.run budget = (.error fault, last) →
        ∃ count, machine.FailsAfter count fault last) ∧
      ∀ total fault last, machine.runSteps total = (.error fault, last) →
        ∃ count < total, machine.FailsAfter count fault last := by
  refine ⟨⟨?_, ?_⟩, ?_, ?_, ?_⟩
  · rintro ⟨fault, failed⟩
    exact refuses_of_error failed
  · intro refuses
    exact ⟨_, congrArg Prod.fst refuses.step⟩
  · intro fault failed
    have refuses := refuses_of_error failed
    rw [refuses.step] at failed
    exact ⟨(Except.error.inj failed).symm, refuses.unchanged⟩
  · intro budget fault last failed
    obtain ⟨count, refused⟩ := exists_of_run_error (congrArg Prod.fst failed)
    rw [run_of_refusedAt refused] at failed
    cases failed
    exact ⟨count, refused.fails.failsAfter⟩
  · intro total fault last failed
    obtain completes | ⟨count, less, other, fails⟩ := machine.completes_or_fails total
    · rw [runSteps_of_completes completes] at failed
      cases failed
    · rw [runSteps_of_failsAt fails less] at failed
      cases failed
      exact ⟨count, less, fails.failsAfter⟩

def strandedMachine : Machine Unit where
  cpu := { registers := {}, config := {} }
  bus := { ram := Ram.zero.store 0 [0xEA, 0xEA, 0xFF], world := () }

theorem strandedMachine_fails :
    ∃ last, strandedMachine.run 100 = (.error (.unknownOpcode 0xFF 2), last) ∧
      last.cpu.cycles = 4 ∧ last.step = (.error (.unknownOpcode 0xFF 2), last) := by
  have first : (strandedMachine.after 0).step.1 = .ok 2 := rfl
  have second : (strandedMachine.after 1).step.1 = .ok 2 := rfl
  have third : (strandedMachine.after 2).step.1 = .error (.unknownOpcode 0xFF 2) := rfl
  have unfinished : ∀ earlier ≤ 2, ¬ strandedMachine.Enough 100 earlier := by decide +kernel
  have failed := run_of_refusedAt ⟨⟨((Completes.zero _).succ first).succ second, third⟩, unfinished⟩
  obtain ⟨count, failure⟩ := (failure_is_atomic strandedMachine).2.2.1 100 _ _ failed
  exact ⟨_, failed, by decide +kernel, (failure.repeats rfl).1⟩

end Machine

end Nmos6502
