import Nmos6502.Machine.Basic

/-!
# Running

A machine runs until it has used a budget of cycles or is asked to stop, or it
runs a number of steps.  It looks at the stop request and then at the budget before
each step, so a request that is made during the last step is answered by the same
run, and a step is never cut short: a run may use up to a step more than its
budget.

A run ends because every completed step uses cycles (`Machine.step_cycles`).  The
four statements `runFrom_of_stopRequested`, `runFrom_of_exhausted`,
`runFrom_of_completed` and `runFrom_of_refused` say what it does next in each case.
-/

set_option autoImplicit false

namespace Nmos6502

inductive StopReason where
  | budgetExhausted
  | stopRequested
  deriving DecidableEq, Repr

namespace StopReason

def name : StopReason → String
  | budgetExhausted => "BudgetExhausted"
  | stopRequested => "StopRequested"

end StopReason

structure RunSummary where
  cycles : Nat
  reason : StopReason
  deriving DecidableEq, Repr

namespace Machine

variable {World : Type}

/-- Goes on with a run that has consumed some cycles of its budget. -/
def runFrom (budget consumed : Nat) (machine : Machine World) :
    Except Fault RunSummary × Machine World :=
  if machine.bus.stopRequested then
    (.ok { cycles := consumed, reason := .stopRequested }, machine.clearStop)
  else if _exhausted : budget ≤ consumed then
    (.ok { cycles := consumed, reason := .budgetExhausted }, machine)
  else
    match _steps : machine.step with
    | (.ok cycles, next) => runFrom budget (consumed + cycles) next
    | (.error fault, next) => (.error fault, next)
termination_by budget - consumed
decreasing_by
  have charged := step_cycles _steps
  omega

def run (machine : Machine World) (budget : Nat) : Except Fault RunSummary × Machine World :=
  runFrom budget 0 machine

def runStepsFrom (consumed : Nat) : Nat → Machine World → Except Fault Nat × Machine World
  | 0, machine => (.ok consumed, machine)
  | count + 1, machine =>
      match machine.step with
      | (.ok cycles, next) => runStepsFrom (consumed + cycles) count next
      | (.error fault, next) => (.error fault, next)

def runSteps (machine : Machine World) (count : Nat) : Except Fault Nat × Machine World :=
  runStepsFrom 0 count machine

theorem runFrom_of_stopRequested {budget consumed : Nat} {machine : Machine World}
    (requested : machine.bus.stopRequested = true) :
    machine.runFrom budget consumed =
      (.ok { cycles := consumed, reason := .stopRequested }, machine.clearStop) := by
  rw [runFrom, if_pos requested]

theorem runFrom_of_exhausted {budget consumed : Nat} {machine : Machine World}
    (quiet : machine.bus.stopRequested = false) (exhausted : budget ≤ consumed) :
    machine.runFrom budget consumed =
      (.ok { cycles := consumed, reason := .budgetExhausted }, machine) := by
  rw [runFrom, if_neg (by simp [quiet]), dif_pos exhausted]

theorem runFrom_of_completed {budget consumed cycles : Nat} {machine next : Machine World}
    (quiet : machine.bus.stopRequested = false) (remaining : consumed < budget)
    (completes : machine.step = (.ok cycles, next)) :
    machine.runFrom budget consumed = next.runFrom budget (consumed + cycles) := by
  rw [runFrom, if_neg (by simp [quiet]), dif_neg (by omega)]
  split
  · rename_i steps
    obtain ⟨same, rfl⟩ := Prod.mk.inj (completes.symm.trans steps)
    obtain rfl := Except.ok.inj same
    rfl
  · rename_i steps
    exact absurd (completes.symm.trans steps) (by simp)

theorem runFrom_of_refused {budget consumed : Nat} {fault : Fault}
    {machine next : Machine World} (quiet : machine.bus.stopRequested = false)
    (remaining : consumed < budget) (refused : machine.step = (.error fault, next)) :
    machine.runFrom budget consumed = (.error fault, next) := by
  rw [runFrom, if_neg (by simp [quiet]), dif_neg (by omega)]
  split
  · rename_i steps
    exact absurd (refused.symm.trans steps) (by simp)
  · rename_i steps
    obtain ⟨same, rfl⟩ := Prod.mk.inj (refused.symm.trans steps)
    obtain rfl := Except.error.inj same
    rfl

end Machine

end Nmos6502
