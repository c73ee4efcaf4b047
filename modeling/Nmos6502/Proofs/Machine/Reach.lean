import Nmos6502.Machine.Request
import Nmos6502.Proofs.Machine.Stages

/-!
# Later states of a machine

A host may do anything to a machine between two steps.  What a step, a run and
every other request keep is shown once, by `runFrom_induction`,
`runStepsFrom_induction` and `performAll_induction`; with it, a machine that is
reached without remapping has its devices where they were (`Reaches.regions`).
-/

set_option autoImplicit false

namespace Nmos6502

namespace Machine

variable {World : Type}

/-- What a step and the answer to a stop request keep, a run keeps. -/
theorem runFrom_induction {motive : Machine World → Prop}
    (steps : ∀ machine, motive machine → motive machine.step.2)
    (clears : ∀ machine, motive machine → motive machine.clearStop)
    (budget consumed : Nat) (machine : Machine World) (holds : motive machine) :
    motive (machine.runFrom budget consumed).2 := by
  fun_induction runFrom budget consumed machine with
  | case1 consumed machine requested => exact clears machine holds
  | case2 consumed machine quiet exhausted => exact holds
  | case3 consumed machine quiet remaining cycles next completes inductionHypothesis =>
      have kept := steps machine holds
      rw [completes] at kept
      exact inductionHypothesis kept
  | case4 consumed machine quiet remaining fault next refused =>
      have kept := steps machine holds
      rwa [refused] at kept

theorem runStepsFrom_induction {motive : Machine World → Prop}
    (steps : ∀ machine, motive machine → motive machine.step.2)
    (consumed count : Nat) (machine : Machine World) (holds : motive machine) :
    motive (machine.runStepsFrom consumed count).2 := by
  induction count generalizing consumed machine with
  | zero => exact holds
  | succ count inductionHypothesis =>
      have kept := steps machine holds
      unfold runStepsFrom
      split
      · rename_i cycles next completes
        rw [completes] at kept
        exact inductionHypothesis _ next kept
      · rename_i fault next refused
        rwa [refused] at kept

section

variable {α : Type} (view : Machine World → α)

theorem run_keeps (steps : ∀ machine, view machine.step.2 = view machine)
    (clears : ∀ machine, view machine.clearStop = view machine) (machine : Machine World)
    (budget : Nat) : view (machine.run budget).2 = view machine :=
  runFrom_induction (motive := fun later => view later = view machine)
    (fun later same => (steps later).trans same) (fun later same => (clears later).trans same)
    budget 0 machine rfl

theorem runSteps_keeps (steps : ∀ machine, view machine.step.2 = view machine)
    (machine : Machine World) (count : Nat) :
    view (machine.runSteps count).2 = view machine :=
  runStepsFrom_induction (motive := fun later => view later = view machine)
    (fun later same => (steps later).trans same) 0 count machine rfl

end

theorem performAll_induction {motive : Machine World → Prop} {requests : List (Request World)}
    (keeps : ∀ request ∈ requests, ∀ machine, motive machine →
      motive (machine.perform request).2)
    (machine : Machine World) (holds : motive machine) :
    motive (machine.performAll requests).2 := by
  induction requests generalizing machine with
  | nil => exact holds
  | cons request rest inductionHypothesis =>
      have first := keeps request (List.mem_cons_self ..) machine holds
      exact inductionHypothesis
        (fun later member => keeps later (List.mem_cons_of_mem _ member)) _ first

def Request.KeepsMapping : Request World → Prop
  | .bus (.map _) | .bus .unmapAll => False
  | _ => True

theorem regions_reply {α : Type} (bus : Bus World) (wrap : α → Bus.Reply) (program : Program α) :
    (bus.reply wrap program).2.regions = bus.regions :=
  program.regions_run bus

theorem regions_performBus (bus : Bus World) (request : Bus.Request World)
    (keeps : (Request.bus request).KeepsMapping) :
    (bus.perform request).2.regions = bus.regions := by
  cases request with
  | load image start =>
      obtain ⟨ram, loaded⟩ := bus.exists_perform_load image start
      rw [loaded]
  | write address value => exact bus.regions_write address value
  | read _ | readWord _ | readSplit _ _ | indirect _ | resolve _ _ =>
      exact regions_reply bus _ _
  | peek _ | regionCount | describe => rfl
  | map _ | unmapAll => exact keeps.elim

theorem regions_perform (machine : Machine World) (request : Request World)
    (keeps : request.KeepsMapping) :
    (machine.perform request).2.bus.regions = machine.bus.regions := by
  cases request with
  | step => exact machine.regions_step
  | run budget => exact run_keeps (·.bus.regions) regions_step (fun _ => rfl) machine budget
  | runSteps count => exact runSteps_keeps (·.bus.regions) regions_step machine count
  | reset => exact machine.cpu.reset.regions_run machine.bus
  | push value => exact (machine.cpu.registers.push value).regions_run machine.bus
  | pull => exact machine.cpu.registers.pull.regions_run machine.bus
  | bus request => exact regions_performBus machine.bus request keeps
  | _ => rfl

/-- The host can bring the first machine to the second without changing the mapping
of the devices: by steps, runs and any other requests, in any order. -/
def Reaches (machine later : Machine World) : Prop :=
  ∃ requests : List (Request World),
    (∀ request ∈ requests, request.KeepsMapping) ∧ (machine.performAll requests).2 = later

theorem Reaches.regions {machine later : Machine World} (reaches : machine.Reaches later) :
    later.bus.regions = machine.bus.regions := by
  obtain ⟨requests, keeps, rfl⟩ := reaches
  exact performAll_induction (motive := fun later => later.bus.regions = machine.bus.regions)
    (fun request member _ same => (regions_perform _ request (keeps request member)).trans same)
    machine rfl

end Machine

end Nmos6502
