import Nmos6502.Machine.Run
import Nmos6502.Proofs.Bus.StopRequests
import Nmos6502.Proofs.Machine.Stages

/-!
# Steps in succession

`Machine.after` is the machine after a number of steps and `Machine.spent` what they cost;
both go on past a refused step, so `Machine.Completes` and `Machine.FailsAt` say whether
they all completed and which step was the first to be refused.  One of the two holds of any
number of steps (`completes_or_fails`).

A counted run is described by the two lemmas `runSteps_of_completes` and
`runSteps_of_failsAt`, in terms of this succession alone.
-/

set_option autoImplicit false

namespace Nmos6502

namespace Machine

variable {World : Type}

def after (machine : Machine World) : Nat → Machine World
  | 0 => machine
  | count + 1 => (machine.after count).step.2

def cost (machine : Machine World) : Nat :=
  match machine.step.1 with
  | .ok cycles => cycles
  | .error _ => 0

def spent (machine : Machine World) : Nat → Nat
  | 0 => 0
  | count + 1 => machine.spent count + (machine.after count).cost

/-- The accesses at which devices asked for a stop in the course of the first steps. -/
def asked (machine : Machine World) : Nat → List Access
  | 0 => []
  | count + 1 =>
      machine.asked count ++ (machine.after count).cpu.step.asking (machine.after count).bus

def Completes (machine : Machine World) (count : Nat) : Prop :=
  ∀ index < count, ∃ cycles, (machine.after index).step.1 = .ok cycles

structure FailsAt (machine : Machine World) (count : Nat) (fault : Fault) : Prop where
  completes : machine.Completes count
  refused : (machine.after count).step.1 = .error fault

/-! ## One more step -/

theorem after_succ (machine : Machine World) (count : Nat) :
    machine.after (count + 1) = machine.step.2.after count := by
  induction count with
  | zero => rfl
  | succ count inductionHypothesis => exact congrArg (fun later => later.step.2) inductionHypothesis

theorem cost_of_completed {machine : Machine World} {cycles : Nat}
    (completed : machine.step.1 = .ok cycles) : machine.cost = cycles := by
  rw [cost, completed]

theorem Completes.zero (machine : Machine World) : machine.Completes 0 := by
  intro index within
  exact absurd within (Nat.not_lt_zero index)

theorem Completes.succ {machine : Machine World} {count cycles : Nat}
    (completes : machine.Completes count) (completed : (machine.after count).step.1 = .ok cycles) :
    machine.Completes (count + 1) := by
  intro index within
  rcases Nat.lt_succ_iff_lt_or_eq.mp within with earlier | rfl
  · exact completes index earlier
  · exact ⟨cycles, completed⟩

theorem Completes.of_le {machine : Machine World} {count fewer : Nat}
    (completes : machine.Completes count) (atMost : fewer ≤ count) : machine.Completes fewer :=
  fun index within => completes index (Nat.lt_of_lt_of_le within atMost)

theorem Completes.step {machine : Machine World} {count index : Nat}
    (completes : machine.Completes count) (within : index < count) :
    (machine.after index).step = (.ok (machine.after index).cost, machine.after (index + 1)) := by
  obtain ⟨cycles, completed⟩ := completes index within
  rw [cost_of_completed completed, ← completed]
  rfl

theorem FailsAt.step {machine : Machine World} {count : Nat} {fault : Fault}
    (fails : machine.FailsAt count fault) :
    (machine.after count).step = (.error fault, machine.after (count + 1)) := by
  rw [← fails.refused]
  rfl

theorem completes_or_fails (machine : Machine World) (count : Nat) :
    machine.Completes count ∨ ∃ earlier < count, ∃ fault, machine.FailsAt earlier fault := by
  induction count with
  | zero => exact Or.inl (.zero machine)
  | succ count inductionHypothesis =>
      obtain completes | ⟨earlier, less, fails⟩ := inductionHypothesis
      · cases outcome : (machine.after count).step.1 with
        | ok cycles => exact Or.inl (completes.succ outcome)
        | error fault => exact Or.inr ⟨count, Nat.lt_succ_self count, fault, completes, outcome⟩
      · exact Or.inr ⟨earlier, Nat.lt_succ_of_lt less, fails⟩

/-! ## Changes that steps ignore -/

/-- A change to the machine makes no difference to its step, and is still there after it. -/
def Ignores (change : Machine World → Machine World) (machine : Machine World) : Prop :=
  (change machine).step = (machine.step.1, change machine.step.2)

section

variable {change : Machine World → Machine World} {machine : Machine World} {count : Nat}

theorem after_of_ignores (ignores : ∀ index < count, (machine.after index).Ignores change) :
    (change machine).after count = change (machine.after count) := by
  induction count with
  | zero => rfl
  | succ count inductionHypothesis =>
      have before := inductionHypothesis fun index less => ignores index (Nat.lt_succ_of_lt less)
      rw [after, before, ignores count (Nat.lt_succ_self count)]
      rfl

theorem spent_of_ignores (ignores : ∀ index < count, (machine.after index).Ignores change) :
    (change machine).spent count = machine.spent count := by
  induction count with
  | zero => rfl
  | succ count inductionHypothesis =>
      have earlier : ∀ index < count, (machine.after index).Ignores change :=
        fun index less => ignores index (Nat.lt_succ_of_lt less)
      rw [spent, inductionHypothesis earlier, after_of_ignores earlier, cost,
        ignores count (Nat.lt_succ_self count)]
      rfl

theorem outcome_of_ignores {index : Nat}
    (ignores : ∀ earlier ≤ index, (machine.after earlier).Ignores change) :
    ((change machine).after index).step.1 = (machine.after index).step.1 := by
  rw [after_of_ignores fun earlier less => ignores earlier (Nat.le_of_lt less),
    ignores index (Nat.le_refl index)]

theorem Completes.of_ignores (completes : machine.Completes count)
    (ignores : ∀ index < count, (machine.after index).Ignores change) :
    (change machine).Completes count := by
  intro index less
  rw [outcome_of_ignores fun earlier atMost => ignores earlier (Nat.lt_of_le_of_lt atMost less)]
  exact completes index less

theorem FailsAt.of_ignores {fault : Fault} (fails : machine.FailsAt count fault)
    (ignores : ∀ index ≤ count, (machine.after index).Ignores change) :
    (change machine).FailsAt count fault where
  completes := fails.completes.of_ignores fun index less => ignores index (Nat.le_of_lt less)
  refused := (outcome_of_ignores ignores).trans fails.refused

end

/-! ## Cycles -/

theorem Completes.cost_bounds {machine : Machine World} {count index : Nat}
    (completes : machine.Completes count) (within : index < count) :
    2 ≤ (machine.after index).cost ∧ (machine.after index).cost ≤ 7 ∧
      (machine.after (index + 1)).cpu.cycles =
        (machine.after index).cpu.cycles + (machine.after index).cost :=
  step_cycles (completes.step within)

theorem Completes.spent_add_two_mul_le {machine : Machine World} {count earlier : Nat}
    (completes : machine.Completes count) (atMost : earlier ≤ count) :
    machine.spent earlier + 2 * (count - earlier) ≤ machine.spent count := by
  induction count with
  | zero =>
      obtain rfl := Nat.le_zero.mp atMost
      exact Nat.le_refl _
  | succ count inductionHypothesis =>
      rcases Nat.le_succ_iff.mp atMost with below | rfl
      · have before := inductionHypothesis (completes.of_le (Nat.le_succ count)) below
        have charged := completes.cost_bounds (Nat.lt_succ_self count)
        simp only [spent]
        omega
      · simp

theorem Completes.cycles_after {machine : Machine World} {count : Nat}
    (completes : machine.Completes count) :
    (machine.after count).cpu.cycles = machine.cpu.cycles + machine.spent count := by
  induction count with
  | zero => rfl
  | succ count inductionHypothesis =>
      have before := inductionHypothesis (completes.of_le (Nat.le_succ count))
      have charged := completes.cost_bounds (Nat.lt_succ_self count)
      simp only [spent]
      omega

/-! ## Stop requests -/

theorem stopRequested_step (machine : Machine World) :
    machine.step.2.bus.stopRequested = true ↔
      machine.bus.stopRequested = true ∨ machine.cpu.step.asking machine.bus ≠ [] := by
  rw [bus_step]
  exact machine.cpu.step.stopRequested_run machine.bus

theorem stopRequested_after (machine : Machine World) (count : Nat) :
    (machine.after count).bus.stopRequested = true ↔
      machine.bus.stopRequested = true ∨ machine.asked count ≠ [] := by
  induction count with
  | zero => simp [after, asked]
  | succ count inductionHypothesis =>
      refine (machine.after count).stopRequested_step.trans ?_
      rw [inductionHypothesis, or_assoc, asked, Ne, Ne, Ne, List.append_eq_nil_iff,
        Classical.not_and_iff_not_or_not]

theorem asked_prefix (machine : Machine World) {earlier count : Nat} (atMost : earlier ≤ count) :
    machine.asked earlier <+: machine.asked count := by
  induction count with
  | zero =>
      obtain rfl := Nat.le_zero.mp atMost
      exact List.prefix_refl _
  | succ count inductionHypothesis =>
      rcases Nat.le_succ_iff.mp atMost with below | rfl
      · exact (inductionHypothesis below).trans (List.prefix_append _ _)
      · exact List.prefix_refl _

theorem quiet_after {machine : Machine World} {count earlier : Nat}
    (fresh : machine.bus.stopRequested = false) (unasked : machine.asked count = [])
    (atMost : earlier ≤ count) : (machine.after earlier).bus.stopRequested = false := by
  have before := machine.asked_prefix atMost
  rw [unasked, List.prefix_nil] at before
  rw [← Bool.not_eq_true, stopRequested_after]
  simp [fresh, before]

theorem clearStop_of_quiet {machine : Machine World} (quiet : machine.bus.stopRequested = false) :
    machine.clearStop = machine := by
  rw [clearStop, ← quiet]

/-! ## Counted runs -/

theorem runStepsFrom_of_completes {machine : Machine World} {count : Nat}
    (completes : machine.Completes count) (consumed more : Nat) :
    machine.runStepsFrom consumed (count + more) =
      (machine.after count).runStepsFrom (consumed + machine.spent count) more := by
  induction count generalizing more with
  | zero => rw [Nat.zero_add]; rfl
  | succ count inductionHypothesis =>
      have before := inductionHypothesis (completes.of_le (Nat.le_succ count)) (more + 1)
      rw [Nat.add_right_comm, Nat.add_assoc, before, runStepsFrom,
        completes.step (Nat.lt_succ_self count)]
      simp only [spent, Nat.add_assoc]

theorem runSteps_of_completes {machine : Machine World} {count : Nat}
    (completes : machine.Completes count) :
    machine.runSteps count = (.ok (machine.spent count), machine.after count) := by
  have run := runStepsFrom_of_completes completes 0 0
  rwa [Nat.zero_add] at run

theorem runSteps_of_failsAt {machine : Machine World} {count total : Nat} {fault : Fault}
    (fails : machine.FailsAt count fault) (within : count < total) :
    machine.runSteps total = (.error fault, machine.after (count + 1)) := by
  obtain ⟨more, rfl⟩ := Nat.exists_eq_add_of_lt within
  rw [runSteps, Nat.add_assoc, runStepsFrom_of_completes fails.completes, runStepsFrom, fails.step]

theorem runSteps_of_ignores {change : Machine World → Machine World} {machine : Machine World}
    {count : Nat}
    (ignores : ∀ index < count, machine.Completes index → (machine.after index).Ignores change) :
    (change machine).runSteps count =
      ((machine.runSteps count).1, change (machine.runSteps count).2) := by
  obtain completes | ⟨earlier, less, fault, fails⟩ := machine.completes_or_fails count
  · have each : ∀ index < count, (machine.after index).Ignores change :=
      fun index within => ignores index within (completes.of_le (Nat.le_of_lt within))
    rw [runSteps_of_completes (completes.of_ignores each), runSteps_of_completes completes,
      after_of_ignores each, spent_of_ignores each]
  · have each : ∀ index ≤ earlier, (machine.after index).Ignores change := fun index atMost =>
      ignores index (Nat.lt_of_le_of_lt atMost less) (fails.completes.of_le atMost)
    rw [runSteps_of_failsAt (fails.of_ignores each) less, runSteps_of_failsAt fails less,
      after_of_ignores fun index before => each index (Nat.le_of_lt_succ before)]

theorem completes_of_runSteps {machine : Machine World} {count cycles : Nat}
    (finished : (machine.runSteps count).1 = .ok cycles) : machine.Completes count := by
  obtain completes | ⟨earlier, less, fault, fails⟩ := machine.completes_or_fails count
  · exact completes
  · rw [runSteps_of_failsAt fails less] at finished
    cases finished

end Machine

end Nmos6502
