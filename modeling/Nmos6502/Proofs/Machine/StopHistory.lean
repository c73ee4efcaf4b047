import Nmos6502.Machine.Request
import Nmos6502.Proofs.Machine.Reach
import Nmos6502.Proofs.Machine.Refusal
import Nmos6502.Proofs.Machine.Retuning

/-!
# Stop requests over a history

A log records in their order the stops that were asked for, by the host or by a device
in the course of an access, and the runs that reported one.  A request is outstanding when
no later run has reported a stop (`StopEvent.Outstanding`).  The flag of the machine says
exactly this after any list of host requests (`StopLog.requested`), so a run reports a stop
if and only if one is outstanding when it looks for the last time, and reports it once.

A request decides how many steps are taken and has no hold on what one of them does.  A step is
given what the bus answers and nothing else, so with or without a request it does the same with
it (`Machine.StepsAlike`).  A device may look at the request and answer by it; until one does, a
machine on which nobody ever asks (`Machine.muted`) takes the same steps.
-/

set_option autoImplicit false

namespace Nmos6502

variable {World : Type}

/-! ## Logs -/

inductive StopEvent where
  | host
  | device (access : Access)
  | reported
  deriving DecidableEq, Repr

namespace StopEvent

/-- A stop was asked for, and no run has reported one since. -/
def Outstanding (log : List StopEvent) : Prop :=
  ∃ earlier request later,
    log = earlier ++ request :: later ∧ request ≠ reported ∧ reported ∉ later

def devices (asked : List Access) : List StopEvent := asked.map device

theorem reported_notMem_devices (asked : List Access) : reported ∉ devices asked := by
  simp [devices]

theorem outstanding_append {log events : List StopEvent} (unreported : reported ∉ events) :
    Outstanding (log ++ events) ↔ Outstanding log ∨ events ≠ [] := by
  cases events with
  | nil => simp
  | cons event rest =>
      have request : event ≠ reported := fun same => unreported (same ▸ List.mem_cons_self ..)
      have after : reported ∉ rest := fun member => unreported (List.mem_cons_of_mem _ member)
      exact iff_of_true ⟨log, event, rest, rfl, request, after⟩ (Or.inr (List.cons_ne_nil _ _))

theorem outstanding_append_devices {log : List StopEvent} {asked : List Access} :
    Outstanding (log ++ devices asked) ↔ Outstanding log ∨ asked ≠ [] := by
  rw [outstanding_append (reported_notMem_devices asked), devices, Ne, List.map_eq_nil_iff]

theorem not_outstanding_reported (log : List StopEvent) : ¬ Outstanding (log ++ [reported]) := by
  rintro ⟨earlier, request, later, split, asks, unreported⟩
  rcases List.eq_nil_or_concat later with rfl | ⟨front, last, rfl⟩
  · exact asks (List.append_inj_right' split rfl |> List.cons.inj).1.symm
  · rw [List.concat_eq_append, ← List.cons_append, ← List.append_assoc] at split
    obtain rfl := (List.cons.inj (List.append_inj_right' split rfl)).1
    exact unreported (by simp)

end StopEvent

/-! ## The events of a request -/

def Bus.askedBy (bus : Bus World) : Bus.Request World → List Access
  | .read address => (Program.readByte address).asking bus
  | .write address value => (Program.writeByte address value).asking bus
  | .readWord address => (Program.readWord address).asking bus
  | .readSplit lowAddress highAddress => (Program.readSplit lowAddress highAddress).asking bus
  | .indirect pointer => (Addressing.indirect pointer).asking bus
  | .resolve mode registers => (Addressing.resolve mode registers).asking bus
  | .load _ _ | .peek _ | .map _ | .unmapAll | .regionCount | .describe => []

namespace Machine

/-- The accesses at which devices ask for a stop in the course of a request that is no run. -/
def askedBy (machine : Machine World) : Request World → List Access
  | .step => machine.cpu.step.asking machine.bus
  | .reset => machine.cpu.reset.asking machine.bus
  | .push value => (machine.cpu.registers.push value).asking machine.bus
  | .pull => machine.cpu.registers.pull.asking machine.bus
  | .bus request => machine.bus.askedBy request
  | _ => []

def Request.IsSingle : Request World → Prop
  | .run _ | .runSteps _ | .requestStop => False
  | _ => True

def reports : Except Fault RunSummary → List StopEvent
  | .ok { reason := .stopRequested, .. } => [.reported]
  | _ => []

inductive StopEvents (machine : Machine World) : Request World → List StopEvent → Prop where
  | host : StopEvents machine .requestStop [.host]
  | single {request : Request World} (single : request.IsSingle) :
      StopEvents machine request (StopEvent.devices (machine.askedBy request))
  | counted {count : Nat} (completes : machine.Completes count) :
      StopEvents machine (.runSteps count) (StopEvent.devices (machine.asked count))
  | failed {count total : Nat} {fault : Fault} (fails : machine.FailsAt count fault)
      (less : count < total) :
      StopEvents machine (.runSteps total) (StopEvent.devices (machine.asked (count + 1)))
  | ended {budget count : Nat} (ends : machine.EndsAt budget count) :
      StopEvents machine (.run budget)
        (StopEvent.devices (machine.asked count) ++ reports (machine.run budget).1)
  | refused {budget count : Nat} {fault : Fault}
      (refused : machine.RefusedAt budget count fault) :
      StopEvents machine (.run budget) (StopEvent.devices (machine.asked (count + 1)))

def StopLog (machine : Machine World) : List (Request World) → List StopEvent → Prop
  | [], log => log = []
  | request :: rest, log => ∃ events later,
      log = events ++ later ∧ machine.StopEvents request events ∧
        (machine.perform request).2.StopLog rest later

theorem stopRequested_performBus (bus : Bus World) (request : Bus.Request World) :
    (bus.perform request).2.stopRequested = true ↔
      bus.stopRequested = true ∨ bus.askedBy request ≠ [] := by
  cases request with
  | read address => exact (Program.readByte address).stopRequested_run bus
  | write address value => exact (Program.writeByte address value).stopRequested_run bus
  | readWord address => exact (Program.readWord address).stopRequested_run bus
  | readSplit low high => exact (Program.readSplit low high).stopRequested_run bus
  | indirect pointer => exact (Addressing.indirect pointer).stopRequested_run bus
  | resolve mode registers => exact (Addressing.resolve mode registers).stopRequested_run bus
  | load image start =>
      obtain ⟨ram, loaded⟩ := bus.exists_perform_load image start
      simp [loaded, Bus.askedBy]
  | peek _ | map _ | unmapAll | regionCount | describe =>
      simp [Bus.askedBy, Bus.perform, Bus.map, Bus.unmapAll]

theorem stopRequested_single (machine : Machine World) {request : Request World}
    (single : request.IsSingle) :
    (machine.perform request).2.bus.stopRequested = true ↔
      machine.bus.stopRequested = true ∨ machine.askedBy request ≠ [] := by
  cases request with
  | run | runSteps | requestStop => exact single.elim
  | step => exact machine.stopRequested_step
  | reset => exact machine.cpu.reset.stopRequested_run machine.bus
  | push value => exact (machine.cpu.registers.push value).stopRequested_run machine.bus
  | pull => exact machine.cpu.registers.pull.stopRequested_run machine.bus
  | bus request => exact stopRequested_performBus machine.bus request
  | setNmiLine | triggerNmi | setIrqLine | stopRequested | setRegisters | config =>
      exact (or_iff_left fun asked => asked rfl).symm

theorem StopEvents.requested {machine : Machine World} {request : Request World}
    {log events : List StopEvent} (logs : machine.StopEvents request events)
    (tracked : machine.bus.stopRequested = true ↔ StopEvent.Outstanding log) :
    (machine.perform request).2.bus.stopRequested = true ↔
      StopEvent.Outstanding (log ++ events) := by
  cases logs with
  | host =>
      have outstanding : StopEvent.Outstanding (log ++ [.host]) :=
        (StopEvent.outstanding_append (by simp)).mpr (Or.inr (List.cons_ne_nil _ _))
      exact iff_of_true rfl outstanding
  | single single =>
      rw [stopRequested_single machine single, tracked, StopEvent.outstanding_append_devices]
  | @counted count completes =>
      have left : (machine.perform (.runSteps count)).2 = machine.after count :=
        congrArg Prod.snd (runSteps_of_completes completes)
      rw [left, stopRequested_after, tracked, StopEvent.outstanding_append_devices]
  | @failed count total fault fails less =>
      have left : (machine.perform (.runSteps total)).2 = machine.after (count + 1) :=
        congrArg Prod.snd (runSteps_of_failsAt fails less)
      rw [left, stopRequested_after, tracked, StopEvent.outstanding_append_devices]
  | @ended budget count ends =>
      have left : (machine.perform (.run budget)).2 = (machine.after count).clearStop :=
        congrArg Prod.snd (run_of_endsAt ends)
      rw [left, run_of_endsAt ends, ← List.append_assoc]
      refine iff_of_false Bool.false_ne_true ?_
      cases requested : (machine.after count).bus.stopRequested with
      | true => exact StopEvent.not_outstanding_reported _
      | false =>
          have quiet :
              ¬ StopEvent.Outstanding (log ++ StopEvent.devices (machine.asked count)) := by
            rw [StopEvent.outstanding_append_devices, ← tracked, ← stopRequested_after, requested]
            exact Bool.false_ne_true
          simpa [reports] using quiet
  | @refused budget count fault refused =>
      have left : (machine.perform (.run budget)).2 = machine.after (count + 1) :=
        congrArg Prod.snd (run_of_refusedAt refused)
      rw [left, stopRequested_after, tracked, StopEvent.outstanding_append_devices]

theorem StopLog.requested {machine : Machine World} {requests : List (Request World)}
    {before log : List StopEvent} (logs : machine.StopLog requests log)
    (tracked : machine.bus.stopRequested = true ↔ StopEvent.Outstanding before) :
    (machine.performAll requests).2.bus.stopRequested = true ↔
      StopEvent.Outstanding (before ++ log) := by
  induction requests generalizing machine before log with
  | nil =>
      obtain rfl : log = [] := logs
      rwa [List.append_nil]
  | cons request rest inductionHypothesis =>
      obtain ⟨events, later, rfl, first, logsRest⟩ := logs
      rw [← List.append_assoc]
      exact inductionHypothesis logsRest (first.requested tracked)

/-! ## What a run answers -/

/-- A run looks at the stop request for the last time after these steps. -/
def LooksLast (machine : Machine World) (budget count : Nat) : Prop :=
  machine.EndsAt budget count ∨ ∃ fault, machine.RefusedAt budget count fault

theorem EndsAt.answered {machine : Machine World} {budget count : Nat}
    (ends : machine.EndsAt budget count) : (machine.run budget).2.bus.stopRequested = false := by
  rw [run_of_endsAt ends]
  rfl

/-- What the log says of the flag, and of the next run whatever its budget. -/
structure Answers (log : List StopEvent) (machine : Machine World) : Prop where
  requested : machine.bus.stopRequested = true ↔ StopEvent.Outstanding log
  looks : ∀ budget, ∃ count, machine.LooksLast budget count
  reported : ∀ budget count, machine.LooksLast budget count →
    ((∃ cycles, (machine.run budget).1 = .ok { cycles, reason := .stopRequested }) ↔
      StopEvent.Outstanding (log ++ StopEvent.devices (machine.asked count)))
  answered : ∀ budget summary, (machine.run budget).1 = .ok summary →
    (machine.run budget).2.bus.stopRequested = false
  failed : ∀ budget fault, (machine.run budget).1 = .error fault →
    ∃ count, machine.RefusedAt budget count fault ∧
      ((machine.run budget).2.bus.stopRequested = true ↔
        (machine.after count).bus.asksOnRead (machine.after count).cpu.registers.pc = true)

/-! ## What a request leaves alone -/

/-- Two machines take a step with the same accesses, the same outcome and the same processor after
it, or part at a read that is answered differently. -/
def StepsAlike (machine other : Machine World) : Prop :=
  (other.step.1 = machine.step.1 ∧ other.step.2.cpu = machine.step.2.cpu ∧
      other.cpu.step.accesses other.bus = machine.cpu.step.accesses machine.bus) ∨
    Access.Parted (machine.cpu.step.accesses machine.bus) (other.cpu.step.accesses other.bus)

def ResetsAlike (machine other : Machine World) : Prop :=
  (other.reset.cpu = machine.reset.cpu ∧
      other.cpu.reset.accesses other.bus = machine.cpu.reset.accesses machine.bus) ∨
    Access.Parted (machine.cpu.reset.accesses machine.bus) (other.cpu.reset.accesses other.bus)

theorem stepsAlike_of_cpu {machine other : Machine World} (same : other.cpu = machine.cpu) :
    machine.StepsAlike other := by
  unfold StepsAlike
  rw [same]
  refine (machine.cpu.step.alike_or_parted machine.bus other.bus).imp_left ?_
  rintro ⟨result, transfers⟩
  unfold step
  rw [same]
  cases left : machine.cpu.step.run machine.bus with
  | mk outcome bus =>
      cases right : machine.cpu.step.run other.bus with
      | mk also after =>
          rw [left, right] at result
          obtain rfl : also = outcome := result
          cases also <;> exact ⟨rfl, rfl, transfers⟩

theorem resetsAlike_of_cpu {machine other : Machine World} (same : other.cpu = machine.cpu) :
    machine.ResetsAlike other := by
  unfold ResetsAlike reset
  rw [same]
  exact machine.cpu.reset.alike_or_parted machine.bus other.bus

/-- In the course of the next step an addressed device makes something of a stop request. -/
def Heeds (machine : Machine World) : Prop := machine.cpu.step.Heeded machine.bus

def muted (machine : Machine World) : Machine World :=
  { machine with bus := machine.bus.muted }

theorem ignores_muted {machine : Machine World} (unheeded : ¬ machine.Heeds) :
    machine.Ignores muted := by
  unfold Ignores step muted
  rw [Program.run_muted unheeded]
  cases machine.cpu.step.run machine.bus with
  | mk outcome bus => cases outcome <;> rfl

theorem reset_muted {machine : Machine World}
    (unheeded : ¬ machine.cpu.reset.Heeded machine.bus) :
    machine.muted.reset = machine.reset.muted := by
  unfold reset muted
  rw [Program.run_muted unheeded]

/-- A run takes these steps, does nothing else but to clear a request it reports, and counts their
cycles. -/
structure RunsThrough (machine : Machine World) (budget count : Nat) : Prop where
  takes : ∀ index < count, machine.Takes (.run budget) (machine.after index)
  left : (machine.run budget).2 = machine.after count ∨
    (machine.run budget).2 = (machine.after count).clearStop
  cycles : ∀ summary, (machine.run budget).1 = .ok summary → summary.cycles = machine.spent count

theorem exists_runsThrough (machine : Machine World) (budget : Nat) :
    ∃ count, machine.RunsThrough budget count := by
  obtain ⟨count, -, ends⟩ | ⟨count, -, fault, refused⟩ := machine.endsAt_or_refusedAt budget
  · refine ⟨count, fun index less => ?_, ?_, ?_⟩
    · exact .run (ends.completes.of_le (Nat.le_of_lt less))
        fun earlier atMost => ends.least earlier (Nat.lt_of_le_of_lt atMost less)
    · exact Or.inr (congrArg Prod.snd (run_of_endsAt ends))
    · intro summary finished
      rw [run_of_endsAt ends] at finished
      cases finished
      rfl
  · refine ⟨count + 1, fun index less => ?_, ?_, ?_⟩
    · have atMost := Nat.le_of_lt_succ less
      exact .run (refused.fails.completes.of_le atMost)
        fun earlier before => refused.unfinished earlier (Nat.le_trans before atMost)
    · exact Or.inl (congrArg Prod.snd (run_of_refusedAt refused))
    · intro summary finished
      rw [run_of_refusedAt refused] at finished
      cases finished

/-- What a request leaves alone.  Whatever is requested, a step and a reset do the same with what
they read (`step`, `reset`).  As long as no device makes something of a request, a machine on
which nobody asks does all the same (`unnoticed`, `runSteps`, `unnoticedReset`).  A run takes more
or fewer steps and clears the request that it reports (`run`); the rest keeps it (`kept`). -/
structure Unheeded (machine : Machine World) : Prop where
  step : ∀ other : Machine World, other.cpu = machine.cpu → machine.StepsAlike other
  reset : ∀ other : Machine World, other.cpu = machine.cpu → machine.ResetsAlike other
  run : ∀ budget, ∃ count, machine.RunsThrough budget count
  unnoticed : ∀ count, (∀ index < count, ¬ (machine.after index).Heeds) →
    machine.muted.after count = (machine.after count).muted ∧
      machine.muted.spent count = machine.spent count ∧
      ∀ index < count, (machine.after index).cpu.step.accesses (machine.after index).bus.muted =
        (machine.after index).cpu.step.accesses (machine.after index).bus
  runSteps : ∀ count, (∀ stepping, machine.Takes (.runSteps count) stepping → ¬ stepping.Heeds) →
    machine.muted.runSteps count =
      ((machine.runSteps count).1, (machine.runSteps count).2.muted)
  unnoticedReset : ¬ machine.cpu.reset.Heeded machine.bus →
    machine.muted.reset = machine.reset.muted
  kept : machine.bus.stopRequested = true →
    machine.step.2.bus.stopRequested = true ∧
      (∀ count, (machine.runSteps count).2.bus.stopRequested = true) ∧
      machine.reset.bus.stopRequested = true

theorem unheeded (machine : Machine World) : machine.Unheeded := by
  constructor
  case step => exact fun other => stepsAlike_of_cpu
  case reset => exact fun other => resetsAlike_of_cpu
  case run => exact machine.exists_runsThrough
  case unnoticed =>
    intro count unheeded
    have ignores : ∀ index < count, (machine.after index).Ignores muted :=
      fun index less => ignores_muted (unheeded index less)
    exact ⟨after_of_ignores ignores, spent_of_ignores ignores,
      fun index less => Program.accesses_muted (unheeded index less)⟩
  case runSteps =>
    intro count unheeded
    exact runSteps_of_ignores fun index within completes =>
      ignores_muted (unheeded _ (.runSteps completes within))
  case unnoticedReset => exact reset_muted
  case kept =>
    intro requested
    refine ⟨machine.stopRequested_step.mpr (Or.inl requested), fun count => ?_, ?_⟩
    · exact runStepsFrom_induction (motive := fun later => later.bus.stopRequested = true)
        (fun later kept => later.stopRequested_step.mpr (Or.inl kept)) 0 count machine requested
    · exact (machine.cpu.reset.stopRequested_run machine.bus).mpr (Or.inl requested)

end Machine

end Nmos6502
