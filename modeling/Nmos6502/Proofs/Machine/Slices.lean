import Nmos6502.Proofs.Machine.Budget

/-!
# Execution in slices

A host that runs a machine in slices gets what one long run would have given.  The seam
of two slices is invisible since a run carries nothing over it but the cycles it has
consumed (`runFrom_add`) and looks at the stop request before it looks at the budget.
A counted run with no stop requested in it is the run whose budget is what it took.
-/

set_option autoImplicit false

namespace Nmos6502

def RunSummary.after (earlier : Nat) (summary : RunSummary) : RunSummary :=
  { summary with cycles := earlier + summary.cycles }

namespace Machine

variable {World : Type}

/-- Cycles consumed beforehand, and allowed for in the budget, make no difference. -/
theorem runFrom_add (offset budget consumed : Nat) (machine : Machine World) :
    machine.runFrom (offset + budget) (offset + consumed) =
      (machine.runFrom budget consumed).map (Except.map (RunSummary.after offset)) id := by
  fun_induction runFrom budget consumed machine with
  | case1 consumed machine requested => exact runFrom_of_stopRequested requested
  | case2 consumed machine quiet exhausted =>
      exact runFrom_of_exhausted (Bool.not_eq_true _ ▸ quiet) (Nat.add_le_add_left exhausted offset)
  | case3 consumed machine quiet remaining cycles next completes inductionHypothesis =>
      have less : offset + consumed < offset + budget := by omega
      rw [runFrom_of_completed (Bool.not_eq_true _ ▸ quiet) less completes, Nat.add_assoc,
        inductionHypothesis]
  | case4 consumed machine quiet remaining fault next refused =>
      have less : offset + consumed < offset + budget := by omega
      exact runFrom_of_refused (Bool.not_eq_true _ ▸ quiet) less refused

theorem runFrom_eq_run (budget consumed : Nat) (machine : Machine World) :
    machine.runFrom budget consumed =
      (machine.run (budget - consumed)).map (Except.map (RunSummary.after consumed)) id := by
  rcases Nat.le_total consumed budget with within | beyond
  · have whole := runFrom_add consumed (budget - consumed) 0 machine
    rwa [Nat.add_sub_cancel' within] at whole
  · have nothing : budget - consumed = 0 := Nat.sub_eq_zero_of_le beyond
    rw [nothing, run]
    cases requested : machine.bus.stopRequested with
    | true => rw [runFrom_of_stopRequested requested, runFrom_of_stopRequested requested]; rfl
    | false =>
        rw [runFrom_of_exhausted requested beyond, runFrom_of_exhausted requested (Nat.le_refl 0)]
        rfl

theorem run_add_of_exhausted {machine middle : Machine World} {first cycles : Nat}
    (exhausted : machine.run first = (.ok { cycles, reason := .budgetExhausted }, middle))
    (second : Nat) :
    machine.run (cycles + second) =
      (middle.run second).map (Except.map (RunSummary.after cycles)) id := by
  obtain ⟨count, ends⟩ := exists_of_run_ok (congrArg Prod.fst exhausted)
  have outcome := (run_of_endsAt ends).symm.trans exhausted
  obtain ⟨summary, left⟩ := Prod.mk.inj outcome
  obtain ⟨taken, reason⟩ := RunSummary.mk.inj (Except.ok.inj summary)
  have quiet : (machine.after count).bus.stopRequested = false := by
    cases requested : (machine.after count).bus.stopRequested with
    | false => rfl
    | true =>
        rw [requested] at reason
        cases reason
  have here : machine.after count = middle := (clearStop_of_quiet quiet).symm.trans left
  have covered : first ≤ cycles := taken ▸ ends.enough.resolve_left (by simp [quiet])
  have unfinished : ∀ earlier < count, ¬ machine.Enough (cycles + second) earlier := by
    intro earlier less
    obtain ⟨undisturbed, remaining⟩ := not_enough.mp (ends.least earlier less)
    exact not_enough.mpr ⟨undisturbed, by omega⟩
  rw [run_eq_runFrom_after ends.completes unfinished, here, taken]
  exact runFrom_add cycles second 0 middle

theorem run_of_runSteps {machine last : Machine World} {count cycles : Nat}
    (finished : machine.runSteps count = (.ok cycles, last))
    (fresh : machine.bus.stopRequested = false) (unasked : machine.asked count = []) :
    machine.run cycles = (.ok { cycles, reason := .budgetExhausted }, last) := by
  have completes := completes_of_runSteps (congrArg Prod.fst finished)
  rw [runSteps_of_completes completes] at finished
  cases finished
  have quiet := quiet_after fresh unasked (Nat.le_refl count)
  have ends : machine.EndsAt (machine.spent count) count := by
    refine ⟨completes, Or.inr (Nat.le_refl _), ?_⟩
    intro earlier less
    have charged := completes.spent_add_two_mul_le (Nat.le_of_lt less)
    exact not_enough.mpr ⟨quiet_after fresh unasked (Nat.le_of_lt less), by omega⟩
  rw [run_of_endsAt ends, clearStop_of_quiet quiet, quiet]
  rfl

theorem runStepsFrom_add (offset consumed count : Nat) (machine : Machine World) :
    machine.runStepsFrom (offset + consumed) count =
      (machine.runStepsFrom consumed count).map (Except.map (offset + ·)) id := by
  induction count generalizing consumed machine with
  | zero => rfl
  | succ count inductionHypothesis =>
      unfold runStepsFrom
      cases machine.step with
      | mk outcome next =>
          cases outcome with
          | ok cycles =>
              simp only [Nat.add_assoc]
              exact inductionHypothesis _ next
          | error fault => rfl

/-- Two slices are one: the state and the outcome of two runs by budget, the first of which
used up its own, are those of a single run, and so with two counted runs; and a counted run
in which nobody asks for a stop is a run with the budget that it took. -/
theorem slices_join (machine : Machine World) :
    (∀ first second cycles middle,
        machine.run first = (.ok { cycles, reason := .budgetExhausted }, middle) →
      machine.run (cycles + second) =
        (middle.run second).map (Except.map (RunSummary.after cycles)) id) ∧
      (∀ first second,
        machine.runSteps (first + second) =
          match machine.runSteps first with
          | (.ok cycles, middle) => (middle.runSteps second).map (Except.map (cycles + ·)) id
          | (.error fault, last) => (.error fault, last)) ∧
      ∀ count cycles last, machine.runSteps count = (.ok cycles, last) →
        machine.bus.stopRequested = false → machine.asked count = [] →
        machine.run cycles = (.ok { cycles, reason := .budgetExhausted }, last) := by
  refine ⟨fun first second cycles middle exhausted => run_add_of_exhausted exhausted second, ?_, ?_⟩
  · intro first second
    obtain completes | ⟨count, less, fault, fails⟩ := machine.completes_or_fails first
    · rw [runSteps_of_completes completes, runSteps, runStepsFrom_of_completes completes,
        Nat.zero_add]
      exact runStepsFrom_add (machine.spent first) 0 second (machine.after first)
    · rw [runSteps_of_failsAt fails less,
        runSteps_of_failsAt fails (Nat.lt_of_lt_of_le less (Nat.le_add_right first second))]
  · intro count cycles last finished fresh unasked
    exact run_of_runSteps finished fresh unasked

def breakingMachine : Machine Unit := .ofConfig {} ()

theorem breakingMachine_joins :
    ∃ last, breakingMachine.runSteps 2 = (.ok 14, last) ∧ breakingMachine.asked 2 = [] ∧
      breakingMachine.run 14 = (.ok { cycles := 14, reason := .budgetExhausted }, last) :=
  ⟨_, rfl, rfl, (slices_join breakingMachine).2.2 2 14 _ rfl rfl rfl⟩

end Machine

end Nmos6502
