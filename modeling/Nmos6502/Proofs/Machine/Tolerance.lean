import Nmos6502.Proofs.Machine.Reach
import Nmos6502.Proofs.Machine.Refusal
import Nmos6502.Proofs.Machine.Retuning
import Nmos6502.Proofs.Machine.Slices

/-!
# Strict and tolerant machines

Two machines that are equal but for the strict setting (`Machine.Twins`) do the same as long
as no step meets an undocumented opcode.  Where one does, the tolerant machine passes over
it in two cycles, and the strict machine refuses.  A host that then moves the program counter
on by one (`Machine.resumed`) and goes on has the strict machine do all that the tolerant
one does; only its cycle counter falls behind, by two for each opcode passed over.
-/

set_option autoImplicit false

namespace Nmos6502

def Config.tolerant (config : Config) : Config := { config with strict := false }

namespace Machine

variable {World : Type}

def AtBlank (machine : Machine World) : Prop :=
  machine.cpu.Idle ∧ decode machine.opcode = none

/-- The machines are equal, but the first is strict and the second is not and is ahead by
some cycles. -/
structure Twins (lead : Nat) (strict tolerant : Machine World) : Prop where
  strict_eq : strict.cpu.config.strict = true
  config_eq : tolerant.cpu.config = strict.cpu.config.tolerant
  registers_eq : tolerant.cpu.registers = strict.cpu.registers
  interrupts_eq : tolerant.cpu.interrupts = strict.cpu.interrupts
  cycles_eq : tolerant.cpu.cycles = strict.cpu.cycles + lead
  bus_eq : tolerant.bus = strict.bus

/-- The machine when the host has moved its program counter on by one. -/
def resumed (machine : Machine World) : Machine World :=
  machine.setRegisters (machine.cpu.registers.advance 1)

/-! ## A host that goes on -/

/-- What a host gets that resumes a strict machine after each refusal, and how many opcodes
it passed over. -/
structure Passage (World α : Type) where
  result : α
  skipped : Nat
  machine : Machine World

def Passage.map {α β : Type} (wrap : α → β) (passage : Passage World α) : Passage World β where
  result := wrap passage.result
  skipped := passage.skipped
  machine := passage.machine

def passStep (machine : Machine World) : Passage World Nat :=
  match machine.step with
  | (.ok cycles, next) => { result := cycles, skipped := 0, machine := next }
  | (.error _, next) => { result := Cpu.skipCycles, skipped := 1, machine := next.resumed }

def passSteps (machine : Machine World) : Nat → Passage World Nat
  | 0 => { result := 0, skipped := 0, machine := machine }
  | count + 1 =>
      let first := machine.passStep
      let rest := first.machine.passSteps count
      { result := first.result + rest.result
        skipped := first.skipped + rest.skipped
        machine := rest.machine }

theorem pos_of_run_error {machine last : Machine World} {budget : Nat} {fault : Fault}
    (failed : machine.run budget = (.error fault, last)) : 0 < budget := by
  obtain ⟨count, refused⟩ := exists_of_run_error (congrArg Prod.fst failed)
  have remaining := (not_enough.mp (refused.unfinished count (Nat.le_refl count))).2
  omega

/-- A run that a refusal ended is followed by one with what is left of the budget. -/
def passRun (machine : Machine World) (budget : Nat) : Passage World RunSummary :=
  match _outcome : machine.run budget with
  | (.ok summary, last) => { result := summary, skipped := 0, machine := last }
  | (.error _, last) =>
      let used := last.cpu.cycles - machine.cpu.cycles + Cpu.skipCycles
      let rest := last.resumed.passRun (budget - used)
      { result := rest.result.after used, skipped := rest.skipped + 1, machine := rest.machine }
termination_by budget
decreasing_by
  have positive := pos_of_run_error _outcome
  have two : Cpu.skipCycles = 2 := rfl
  omega

def passRequest (machine : Machine World) : Request World → Passage World Reply
  | .step => machine.passStep.map .cycles
  | .run budget => (machine.passRun budget).map .summary
  | .runSteps count => (machine.passSteps count).map .cycles
  | request =>
      { result := (machine.perform request).1
        skipped := 0
        machine := (machine.perform request).2 }

def passAll (machine : Machine World) : List (Request World) → Passage World (List Reply)
  | [] => { result := [], skipped := 0, machine := machine }
  | request :: rest =>
      let first := machine.passRequest request
      let later := first.machine.passAll rest
      { result := first.result :: later.result
        skipped := first.skipped + later.skipped
        machine := later.machine }

/-! ## Twins -/

theorem config_step (machine : Machine World) :
    machine.step.2.cpu.config = machine.cpu.config := by
  obtain idle | ⟨kind, requests⟩ := machine.cpu.idle_or_requests
  · cases documented : decode (machine.bus.read machine.cpu.registers.pc).1 with
    | some instruction => rw [step_of_executes ⟨idle, documented⟩]
    | none =>
        rw [step_of_undocumented idle documented]
        split <;> rfl
  · rw [step_of_requests requests]

theorem config_perform (machine : Machine World) (request : Request World) :
    (machine.perform request).2.cpu.config = machine.cpu.config := by
  cases request with
  | step => exact machine.config_step
  | run budget => exact run_keeps (·.cpu.config) config_step (fun _ => rfl) machine budget
  | runSteps count => exact runSteps_keeps (·.cpu.config) config_step machine count
  | reset => simp [perform, reset, Cpu.reset, Program.run_bind]
  | _ => rfl

theorem config_performAll (machine : Machine World) (requests : List (Request World)) :
    (machine.performAll requests).2.cpu.config = machine.cpu.config :=
  performAll_induction (motive := fun later => later.cpu.config = machine.cpu.config)
    (fun request _ later same => (later.config_perform request).trans same) machine rfl

theorem Twins.eq_retuned {lead : Nat} {strict tolerant : Machine World}
    (twins : Twins lead strict tolerant) : tolerant = strict.retuned Config.tolerant lead := by
  obtain ⟨⟨registers, config, interrupts, cycles⟩, bus⟩ := tolerant
  obtain ⟨-, rfl, rfl, rfl, rfl, rfl⟩ := twins
  rfl

theorem twins_retuned {strict : Machine World} (strictly : strict.cpu.config.strict = true)
    (lead : Nat) : Twins lead strict (strict.retuned Config.tolerant lead) :=
  ⟨strictly, rfl, rfl, rfl, rfl, rfl⟩

theorem indifferent_of_not_atBlank {machine : Machine World} (ordinary : ¬ machine.AtBlank)
    (lead : Nat) : machine.Indifferent Config.tolerant lead := by
  unfold Indifferent Ignores
  obtain idle | ⟨kind, requests⟩ := machine.cpu.idle_or_requests
  · cases documented : decode machine.opcode with
    | none => exact absurd ⟨idle, documented⟩ ordinary
    | some instruction =>
        have executes : machine.Executes instruction := ⟨idle, documented⟩
        have also : (machine.retuned Config.tolerant lead).Executes instruction :=
          ⟨idle, documented⟩
        rw [step_of_executes executes, step_of_executes also]
        simp only [retuned, Nat.add_right_comm]
        rfl
  · have also : (machine.retuned Config.tolerant lead).cpu.Requests kind := by
      cases kind <;> exact requests
    rw [step_of_requests requests, step_of_requests also]
    simp only [retuned, Nat.add_right_comm]
    rfl

theorem AtBlank.refuses {machine : Machine World} (blank : machine.AtBlank)
    (strictly : machine.cpu.config.strict = true) : machine.Refuses :=
  ⟨blank.1.1, blank.1.2, strictly, blank.2⟩

theorem not_atBlank_of_completed {machine : Machine World} {cycles : Nat}
    (strictly : machine.cpu.config.strict = true) (completed : machine.step.1 = .ok cycles) :
    ¬ machine.AtBlank := by
  intro blank
  rw [(blank.refuses strictly).step] at completed
  cases completed

theorem Refuses.atBlank {machine : Machine World} (refuses : machine.Refuses) : machine.AtBlank :=
  ⟨refuses.idle, refuses.undocumented⟩

theorem step_retuned_of_atBlank {strict : Machine World} (blank : strict.AtBlank)
    (strictly : strict.cpu.config.strict = true) (lead : Nat) :
    (strict.retuned Config.tolerant lead).step =
      (.ok Cpu.skipCycles,
        strict.step.2.resumed.retuned Config.tolerant (lead + Cpu.skipCycles)) := by
  have idle : (strict.retuned Config.tolerant lead).cpu.Idle := blank.1
  rw [step_of_undocumented idle blank.2, if_neg (by simp [retuned, Config.tolerant]),
    (blank.refuses strictly).step]
  simp only [retuned, Nat.add_assoc]
  rfl

theorem accesses_retuned (machine : Machine World) (lead : Nat) :
    (machine.retuned Config.tolerant lead).cpu.step.accesses machine.bus =
      machine.cpu.step.accesses machine.bus := by
  obtain idle | ⟨kind, requests⟩ := machine.cpu.idle_or_requests
  · have also : (machine.retuned Config.tolerant lead).cpu.Idle := idle
    cases documented : decode machine.opcode with
    | none =>
        have blank : decode ((machine.retuned Config.tolerant lead).bus.read
            (machine.retuned Config.tolerant lead).cpu.registers.pc).1 = none := documented
        exact (accesses_of_undocumented also blank).trans
          (accesses_of_undocumented idle documented).symm
    | some instruction =>
        have executes : (machine.retuned Config.tolerant lead).Executes instruction :=
          ⟨also, documented⟩
        exact (accesses_of_executes executes).trans (accesses_of_executes ⟨idle, documented⟩).symm
  · have also : (machine.retuned Config.tolerant lead).cpu.Requests kind := by
      cases kind <;> exact requests
    have serves : (machine.retuned Config.tolerant lead).cpu.step.accesses machine.bus = _ :=
      accesses_of_requests also
    exact serves.trans (accesses_of_requests requests).symm

/-! ## The host's passage -/

/-- The tolerant machine gives what the host gets, and is ahead by two cycles more for each
opcode that the host passed over. -/
def Passage.Matches {α : Type} (lead : Nat) (passage : Passage World α)
    (outcome : α × Machine World) : Prop :=
  outcome.1 = passage.result ∧ Twins (lead + 2 * passage.skipped) passage.machine outcome.2

theorem passStep_matches {lead : Nat} {strict tolerant : Machine World}
    (twins : Twins lead strict tolerant) :
    (strict.passStep.map Except.ok).Matches lead tolerant.step := by
  have strictly := twins.strict_eq
  obtain rfl := twins.eq_retuned
  unfold passStep
  cases outcome : strict.step with
  | mk result next =>
      have same : next.cpu.config.strict = true := by
        have kept := strict.config_step
        rw [outcome] at kept
        exact kept ▸ strictly
      cases result with
      | ok cycles =>
          have ordinary := not_atBlank_of_completed strictly (congrArg Prod.fst outcome)
          have step := indifferent_of_not_atBlank ordinary lead
          rw [Indifferent, Ignores, outcome] at step
          rw [step]
          exact ⟨rfl, twins_retuned same lead⟩
      | error fault =>
          have refuses := refuses_of_error (congrArg Prod.fst outcome)
          rw [step_retuned_of_atBlank refuses.atBlank strictly, outcome]
          have resumes : next.resumed.cpu.config.strict = true := same
          exact ⟨rfl, twins_retuned resumes (lead + 2)⟩

theorem passSteps_matches {lead : Nat} {strict tolerant : Machine World}
    (twins : Twins lead strict tolerant) (consumed count : Nat) :
    ((strict.passSteps count).map fun cycles => Except.ok (consumed + cycles)).Matches lead
      (tolerant.runStepsFrom consumed count) := by
  induction count generalizing lead strict tolerant consumed with
  | zero => exact ⟨rfl, twins⟩
  | succ count inductionHypothesis =>
      obtain ⟨result, next⟩ := passStep_matches twins
      have rest := inductionHypothesis next (consumed + strict.passStep.result)
      have step : tolerant.step = (.ok strict.passStep.result, tolerant.step.2) :=
        Prod.ext result rfl
      rw [runStepsFrom, step]
      simp only [Passage.map, Passage.Matches, passSteps] at rest ⊢
      rwa [Nat.mul_add, ← Nat.add_assoc, ← Nat.add_assoc]

theorem config_after (machine : Machine World) (count : Nat) :
    (machine.after count).cpu.config = machine.cpu.config := by
  induction count with
  | zero => rfl
  | succ count inductionHypothesis => exact (config_step _).trans inductionHypothesis

theorem Completes.indifferent {strict : Machine World} {count : Nat}
    (completes : strict.Completes count) (strictly : strict.cpu.config.strict = true) (lead : Nat) :
    ∀ index < count, (strict.after index).Indifferent Config.tolerant lead := by
  intro index less
  obtain ⟨cycles, completed⟩ := completes index less
  have same : (strict.after index).cpu.config.strict = true := by rwa [config_after]
  exact indifferent_of_not_atBlank (not_atBlank_of_completed same completed) lead

theorem run_retuned_of_refusedAt {strict : Machine World} {budget count lead : Nat} {fault : Fault}
    (refused : strict.RefusedAt budget count fault) (strictly : strict.cpu.config.strict = true) :
    (strict.retuned Config.tolerant lead).run budget =
      ((strict.after (count + 1)).resumed.retuned Config.tolerant (lead + Cpu.skipCycles)).runFrom
        budget (strict.spent count + Cpu.skipCycles) := by
  have completes := refused.fails.completes
  have steady := completes.indifferent strictly lead
  have unfinished : ∀ earlier < count,
      ¬ (strict.retuned Config.tolerant lead).Enough budget earlier := by
    intro earlier less
    rw [enough_retuned fun index before => steady index (Nat.lt_trans before less)]
    exact refused.unfinished earlier (Nat.le_of_lt less)
  rw [run_eq_runFrom_after (completes.of_ignores steady) unfinished, after_of_ignores steady,
    spent_of_ignores steady]
  have same : (strict.after count).cpu.config.strict = true := by rwa [config_after]
  have blank := (refuses_of_error refused.fails.refused).atBlank
  have remaining := (not_enough.mp (refused.unfinished count (Nat.le_refl count))).2
  exact runFrom_of_completed refused.quiet remaining (step_retuned_of_atBlank blank same lead)

theorem passRun_matches {lead : Nat} {strict tolerant : Machine World}
    (twins : Twins lead strict tolerant) (budget : Nat) :
    ((strict.passRun budget).map Except.ok).Matches lead (tolerant.run budget) := by
  have strictly := twins.strict_eq
  obtain rfl := twins.eq_retuned
  clear twins
  fun_induction passRun strict budget generalizing lead with
  | case1 strict budget summary last outcome =>
      obtain ⟨count, ends⟩ := exists_of_run_ok (congrArg Prod.fst outcome)
      have steady := ends.completes.indifferent strictly lead
      rw [run_of_endsAt ends] at outcome
      rw [run_of_endsAt (ends.retuned steady), after_of_ignores steady, spent_of_ignores steady]
      obtain ⟨rfl, rfl⟩ := Prod.mk.inj outcome |>.imp Except.ok.inj id
      have same : (strict.after count).clearStop.cpu.config.strict = true := by
        rwa [clearStop, config_after]
      exact ⟨rfl, twins_retuned same lead⟩
  | case2 strict budget fault last outcome used rest =>
      rename_i inductionHypothesis
      obtain ⟨count, refused⟩ := exists_of_run_error (congrArg Prod.fst outcome)
      rw [run_of_refusedAt refused] at outcome
      obtain rfl : strict.after (count + 1) = last := congrArg Prod.snd outcome
      have consumed : used = strict.spent count + Cpu.skipCycles := by
        have charged := refused.fails.failsAfter.cycles
        omega
      have same : (strict.after (count + 1)).resumed.cpu.config.strict = true := by
        rwa [resumed, setRegisters, config_after]
      obtain ⟨result, next⟩ := @inductionHypothesis (lead + Cpu.skipCycles) same
      rw [run_retuned_of_refusedAt refused strictly, ← consumed, runFrom_eq_run]
      refine ⟨congrArg (Except.map (RunSummary.after used)) result, ?_⟩
      have ahead : lead + 2 * (rest.skipped + 1) = lead + 2 + 2 * rest.skipped := by omega
      exact ahead ▸ next

theorem resetSp_tolerant (config : Config) : config.tolerant.resetSp = config.resetSp :=
  rfl

theorem perform_twins {lead : Nat} {strict tolerant : Machine World}
    (twins : Twins lead strict tolerant) {request : Request World}
    (ordinary : ∀ stepping, strict.Takes request stepping → ¬ stepping.AtBlank) :
    (tolerant.perform request).1 = (strict.perform request).1.retuned Config.tolerant ∧
      Twins lead (strict.perform request).2 (tolerant.perform request).2 := by
  have strictly : (strict.perform request).2.cpu.config.strict = true := by
    rw [config_perform]
    exact twins.strict_eq
  obtain rfl := twins.eq_retuned
  have same : (strict.retuned Config.tolerant lead).perform request =
      ((strict.perform request).1.retuned Config.tolerant,
        (strict.perform request).2.retuned Config.tolerant lead) :=
    perform_retuned resetSp_tolerant fun stepping takes =>
      indifferent_of_not_atBlank (ordinary stepping takes) lead
  exact ⟨congrArg Prod.fst same, same ▸ twins_retuned strictly lead⟩

theorem passRequest_matches {lead : Nat} {strict tolerant : Machine World}
    (twins : Twins lead strict tolerant) (request : Request World) :
    ((strict.passRequest request).map (Reply.retuned Config.tolerant)).Matches lead
      (tolerant.perform request) := by
  cases request with
  | step =>
      obtain ⟨result, next⟩ := passStep_matches twins
      exact ⟨congrArg (Reply.ofExcept .cycles) result, next⟩
  | run budget =>
      obtain ⟨result, next⟩ := passRun_matches twins budget
      exact ⟨congrArg (Reply.ofExcept .summary) result, next⟩
  | runSteps count =>
      obtain ⟨result, next⟩ := passSteps_matches twins 0 count
      refine ⟨(congrArg (Reply.ofExcept .cycles) result).trans ?_, next⟩
      exact congrArg Reply.cycles (Nat.zero_add _)
  | reset | push | pull | setNmiLine | triggerNmi | setIrqLine | requestStop | stopRequested
  | setRegisters | config | bus => exact perform_twins twins fun stepping takes => nomatch takes

theorem performAll_twins {lead : Nat} {strict tolerant : Machine World}
    (twins : Twins lead strict tolerant) {requests : List (Request World)}
    (ordinary : strict.EachStep (fun stepping => ¬ stepping.AtBlank) requests) :
    (tolerant.performAll requests).1 =
        (strict.performAll requests).1.map (Reply.retuned Config.tolerant) ∧
      Twins lead (strict.performAll requests).2 (tolerant.performAll requests).2 := by
  have strictly : (strict.performAll requests).2.cpu.config.strict = true := by
    rw [config_performAll]
    exact twins.strict_eq
  obtain rfl := twins.eq_retuned
  have same : (strict.retuned Config.tolerant lead).performAll requests =
      ((strict.performAll requests).1.map (Reply.retuned Config.tolerant),
        (strict.performAll requests).2.retuned Config.tolerant lead) :=
    performAll_retuned resetSp_tolerant
      (ordinary.imp fun stepping unmet => indifferent_of_not_atBlank unmet lead)
  exact ⟨congrArg Prod.fst same, same ▸ twins_retuned strictly lead⟩

theorem passAll_matches {lead : Nat} {strict tolerant : Machine World}
    (twins : Twins lead strict tolerant) (requests : List (Request World)) :
    ((strict.passAll requests).map (List.map (Reply.retuned Config.tolerant))).Matches lead
      (tolerant.performAll requests) := by
  induction requests generalizing lead strict tolerant with
  | nil => exact ⟨rfl, twins⟩
  | cons request rest inductionHypothesis =>
      obtain ⟨reply, next⟩ := passRequest_matches twins request
      obtain ⟨replies, last⟩ := inductionHypothesis next
      refine ⟨congr (congrArg List.cons reply) replies, ?_⟩
      have ahead (first later : Nat) :
          lead + 2 * (first + later) = lead + 2 * first + 2 * later := by
        omega
      exact ahead _ _ ▸ last

theorem completes_of_tolerant {machine : Machine World}
    (tolerant : machine.cpu.config.strict = false) (count : Nat) : machine.Completes count := by
  intro index _
  cases outcome : (machine.after index).step.1 with
  | ok cycles => exact ⟨cycles, rfl⟩
  | error fault =>
      have strictly := (refuses_of_error outcome).strict
      rw [config_after, tolerant] at strictly
      cases strictly

theorem exists_run_of_tolerant {machine : Machine World}
    (tolerant : machine.cpu.config.strict = false) (budget : Nat) :
    ∃ summary, (machine.run budget).1 = .ok summary := by
  obtain ⟨count, -, ends⟩ | ⟨count, -, fault, refused⟩ := machine.endsAt_or_refusedAt budget
  · exact ⟨_, congrArg Prod.fst (run_of_endsAt ends)⟩
  · obtain ⟨cycles, completed⟩ :=
      completes_of_tolerant tolerant (count + 1) count (Nat.lt_succ_self count)
    rw [refused.fails.refused] at completed
    cases completed

/-- Strict and tolerant machines agree as long as no step meets an undocumented opcode; and
if the host moves the program counter of the strict one on at each of these, they agree in
everything but the cycles, of which the tolerant one counts two more each time.  A tolerant
machine never fails. -/
theorem strict_agrees_with_tolerant {lead : Nat} {strict tolerant : Machine World}
    (twins : Twins lead strict tolerant) :
    (∀ requests, strict.EachStep (fun stepping => ¬ stepping.AtBlank) requests →
        (tolerant.performAll requests).1 =
            (strict.performAll requests).1.map (Reply.retuned Config.tolerant) ∧
          Twins lead (strict.performAll requests).2 (tolerant.performAll requests).2) ∧
      (tolerant.cpu.step.accesses tolerant.bus = strict.cpu.step.accesses strict.bus ∧
        (strict.AtBlank →
          strict.step.1 = .error (.unknownOpcode strict.opcode strict.cpu.registers.pc) ∧
            tolerant.step.1 = .ok 2 ∧
            Twins (lead + 2) strict.step.2.resumed tolerant.step.2)) ∧
      (∀ requests,
        (tolerant.performAll requests).1 =
            (strict.passAll requests).result.map (Reply.retuned Config.tolerant) ∧
          Twins (lead + 2 * (strict.passAll requests).skipped) (strict.passAll requests).machine
            (tolerant.performAll requests).2) ∧
      ∀ machine : Machine World, machine.cpu.config.strict = false →
        (∃ cycles, machine.step.1 = .ok cycles) ∧
          (∀ budget, ∃ summary, (machine.run budget).1 = .ok summary) ∧
          ∀ count, ∃ cycles, (machine.runSteps count).1 = .ok cycles := by
  refine ⟨fun requests => performAll_twins twins, ⟨?_, ?_⟩, passAll_matches twins, ?_⟩
  · obtain rfl := twins.eq_retuned
    exact accesses_retuned strict lead
  · intro blank
    obtain rfl := twins.eq_retuned
    have refuses := blank.refuses twins.strict_eq
    have same : strict.step.2.resumed.cpu.config.strict = true := by
      rw [resumed, setRegisters, config_step, twins.strict_eq]
    rw [step_retuned_of_atBlank blank twins.strict_eq]
    exact ⟨congrArg Prod.fst refuses.step, rfl, twins_retuned same (lead + 2)⟩
  · intro machine never
    refine ⟨completes_of_tolerant never 1 0 Nat.zero_lt_one, exists_run_of_tolerant never, ?_⟩
    intro count
    exact ⟨_, congrArg Prod.fst (runSteps_of_completes (completes_of_tolerant never count))⟩

/-- The third step meets the byte that is no opcode. -/
theorem strandedMachine_passed :
    ∃ last : Machine Unit,
      (strandedMachine.retuned Config.tolerant 0).performAll [.step, .step, .step] =
          ([.cycles 2, .cycles 2, .cycles 2], last) ∧
        Twins 2 (strandedMachine.passAll [.step, .step, .step]).machine last := by
  have strictly : strandedMachine.cpu.config.strict = true := rfl
  obtain ⟨-, -, passed, -⟩ := strict_agrees_with_tolerant (twins_retuned strictly 0)
  obtain ⟨replies, twins⟩ := passed [.step, .step, .step]
  have gets : (strandedMachine.passAll [.step, .step, .step]).result =
      [.cycles 2, .cycles 2, .cycles 2] := rfl
  have skipped : (strandedMachine.passAll [.step, .step, .step]).skipped = 1 := rfl
  rw [gets] at replies
  rw [skipped] at twins
  exact ⟨_, Prod.ext replies rfl, twins⟩

end Machine

end Nmos6502
