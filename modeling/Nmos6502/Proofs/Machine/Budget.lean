import Nmos6502.Proofs.Machine.Steps

/-!
# Runs within a budget

A run takes the fewest steps after which it has to end: after them a stop is requested, or
the steps have used up the budget (`Machine.EndsAt`).  Unless a step before that is refused
(`Machine.RefusedAt`) there is such a number, since every completed step takes two cycles
at least (`endsAt_or_refusedAt`).  `run_of_endsAt` and `run_of_refusedAt` give the whole
outcome of a run in terms of the succession of its steps, and `run_least_sufficient` puts
this together.
-/

set_option autoImplicit false

namespace Nmos6502

namespace Machine

variable {World : Type}

/-- A run has to end after this many steps: a stop is requested, or the budget is used up. -/
def Enough (machine : Machine World) (budget count : Nat) : Prop :=
  (machine.after count).bus.stopRequested = true ∨ budget ≤ machine.spent count

instance (machine : Machine World) (budget count : Nat) :
    Decidable (machine.Enough budget count) :=
  inferInstanceAs (Decidable (_ ∨ _))

structure EndsAt (machine : Machine World) (budget count : Nat) : Prop where
  completes : machine.Completes count
  enough : machine.Enough budget count
  least : ∀ earlier < count, ¬ machine.Enough budget earlier

structure RefusedAt (machine : Machine World) (budget count : Nat) (fault : Fault) : Prop where
  fails : machine.FailsAt count fault
  unfinished : ∀ earlier ≤ count, ¬ machine.Enough budget earlier

theorem not_enough {machine : Machine World} {budget count : Nat} :
    ¬ machine.Enough budget count ↔
      (machine.after count).bus.stopRequested = false ∧ machine.spent count < budget := by
  rw [Enough, not_or, Bool.not_eq_true, Nat.not_le]

theorem RefusedAt.quiet {machine : Machine World} {budget count : Nat} {fault : Fault}
    (refused : machine.RefusedAt budget count fault) :
    (machine.after count).bus.stopRequested = false :=
  (not_enough.mp (refused.unfinished count (Nat.le_refl count))).1

/-! ## How a run goes on -/

/-- As long as a run goes on, it is at the machine that its steps alone lead to. -/
theorem run_eq_runFrom_after {machine : Machine World} {budget count : Nat}
    (completes : machine.Completes count)
    (unfinished : ∀ earlier < count, ¬ machine.Enough budget earlier) :
    machine.run budget = (machine.after count).runFrom budget (machine.spent count) := by
  induction count with
  | zero => rfl
  | succ count inductionHypothesis =>
      have before := inductionHypothesis (completes.of_le (Nat.le_succ count))
        fun earlier less => unfinished earlier (Nat.lt_succ_of_lt less)
      obtain ⟨quiet, remaining⟩ := not_enough.mp (unfinished count (Nat.lt_succ_self count))
      have next := runFrom_of_completed quiet remaining (completes.step (Nat.lt_succ_self count))
      exact before.trans next

theorem run_of_endsAt {machine : Machine World} {budget count : Nat}
    (ends : machine.EndsAt budget count) :
    machine.run budget =
      (.ok
        { cycles := machine.spent count
          reason :=
            if (machine.after count).bus.stopRequested then .stopRequested else .budgetExhausted },
        (machine.after count).clearStop) := by
  rw [run_eq_runFrom_after ends.completes ends.least]
  cases requested : (machine.after count).bus.stopRequested with
  | true => exact runFrom_of_stopRequested requested
  | false =>
      have exhausted : budget ≤ machine.spent count :=
        ends.enough.resolve_left (by simp [requested])
      rw [runFrom_of_exhausted requested exhausted, clearStop_of_quiet requested]
      rfl

theorem run_of_refusedAt {machine : Machine World} {budget count : Nat} {fault : Fault}
    (refused : machine.RefusedAt budget count fault) :
    machine.run budget = (.error fault, machine.after (count + 1)) := by
  have going := run_eq_runFrom_after refused.fails.completes
    fun earlier less => refused.unfinished earlier (Nat.le_of_lt less)
  obtain ⟨quiet, remaining⟩ := not_enough.mp (refused.unfinished count (Nat.le_refl count))
  exact going.trans (runFrom_of_refused quiet remaining refused.fails.step)

/-! ## How a run ends -/

theorem ends_or_goes_on (machine : Machine World) (budget count : Nat) :
    (∃ earlier < count, machine.EndsAt budget earlier) ∨
      (∃ earlier < count, ∃ fault, machine.RefusedAt budget earlier fault) ∨
      (machine.Completes count ∧ ∀ earlier < count, ¬ machine.Enough budget earlier) := by
  induction count with
  | zero => exact Or.inr (Or.inr ⟨.zero machine, fun earlier less => absurd less (by omega)⟩)
  | succ count inductionHypothesis =>
      obtain ⟨earlier, less, ends⟩ | ⟨earlier, less, refused⟩ | ⟨completes, unfinished⟩ :=
        inductionHypothesis
      · exact Or.inl ⟨earlier, Nat.lt_succ_of_lt less, ends⟩
      · exact Or.inr (Or.inl ⟨earlier, Nat.lt_succ_of_lt less, refused⟩)
      · by_cases enough : machine.Enough budget count
        · exact Or.inl ⟨count, Nat.lt_succ_self count, completes, enough, unfinished⟩
        · have still : ∀ earlier ≤ count, ¬ machine.Enough budget earlier := by
            intro earlier atMost
            rcases Nat.lt_or_eq_of_le atMost with less | rfl
            · exact unfinished earlier less
            · exact enough
          cases outcome : (machine.after count).step.1 with
          | ok cycles =>
              exact Or.inr (Or.inr ⟨completes.succ outcome,
                fun earlier less => still earlier (Nat.le_of_lt_succ less)⟩)
          | error fault =>
              exact Or.inr (Or.inl
                ⟨count, Nat.lt_succ_self count, fault, ⟨completes, outcome⟩, still⟩)

theorem endsAt_or_refusedAt (machine : Machine World) (budget : Nat) :
    (∃ count ≤ (budget + 1) / 2, machine.EndsAt budget count) ∨
      ∃ count < (budget + 1) / 2, ∃ fault, machine.RefusedAt budget count fault := by
  obtain ⟨count, less, ends⟩ | refused | ⟨completes, unfinished⟩ :=
    machine.ends_or_goes_on budget ((budget + 1) / 2)
  · exact Or.inl ⟨count, Nat.le_of_lt less, ends⟩
  · exact Or.inr refused
  · have charged := completes.spent_add_two_mul_le (Nat.zero_le _)
    have exhausted : budget ≤ machine.spent ((budget + 1) / 2) := by omega
    exact Or.inl ⟨_, Nat.le_refl _, completes, Or.inr exhausted, unfinished⟩

theorem EndsAt.spent_le {machine : Machine World} {budget count : Nat}
    (ends : machine.EndsAt budget count) : machine.spent count ≤ budget + 6 := by
  cases count with
  | zero => exact Nat.zero_le _
  | succ count =>
      have remaining := (not_enough.mp (ends.least count (Nat.lt_succ_self count))).2
      have charged := ends.completes.cost_bounds (Nat.lt_succ_self count)
      simp only [spent]
      omega

theorem exists_of_run_error {machine : Machine World} {budget : Nat} {fault : Fault}
    (failed : (machine.run budget).1 = .error fault) :
    ∃ count, machine.RefusedAt budget count fault := by
  obtain ⟨count, -, ends⟩ | ⟨count, -, other, refused⟩ := machine.endsAt_or_refusedAt budget
  · rw [run_of_endsAt ends] at failed
    cases failed
  · rw [run_of_refusedAt refused] at failed
    cases failed
    exact ⟨count, refused⟩

theorem exists_of_run_ok {machine : Machine World} {budget : Nat} {summary : RunSummary}
    (finished : (machine.run budget).1 = .ok summary) : ∃ count, machine.EndsAt budget count := by
  obtain ⟨count, -, ends⟩ | ⟨count, -, fault, refused⟩ := machine.endsAt_or_refusedAt budget
  · exact ⟨count, ends⟩
  · rw [run_of_refusedAt refused] at finished
    cases finished

/-- A run is the shortest succession of steps that is enough, and always ends.  It leaves
the machine after these steps with the stop request answered, and says whether there was
one, even if the budget was used up as well; a step that is refused earlier ends it there. -/
theorem run_least_sufficient (machine : Machine World) (budget : Nat) :
    ((∃ count ≤ (budget + 1) / 2, machine.EndsAt budget count) ∨
        ∃ count < (budget + 1) / 2, ∃ fault, machine.RefusedAt budget count fault) ∧
      (∀ count, machine.EndsAt budget count →
        ∃ reason,
          machine.run budget =
              (.ok { cycles := machine.spent count, reason }, (machine.after count).clearStop) ∧
            (reason = .stopRequested ↔ (machine.after count).bus.stopRequested = true) ∧
            machine.spent count ≤ budget + 6 ∧
            (reason = .budgetExhausted → budget ≤ machine.spent count)) ∧
      ∀ count fault, machine.RefusedAt budget count fault →
        machine.run budget = (.error fault, machine.after (count + 1)) := by
  refine ⟨machine.endsAt_or_refusedAt budget, ?_, fun count fault => run_of_refusedAt⟩
  intro count ends
  refine ⟨_, run_of_endsAt ends, ?_, ends.spent_le, ?_⟩
  · cases (machine.after count).bus.stopRequested <;> simp
  · intro exhausted
    refine ends.enough.resolve_left fun requested => ?_
    rw [if_pos requested] at exhausted
    cases exhausted

/-- A machine about to store to a device that asks for a stop whenever it is written. -/
def stoppingMachine : Machine Unit where
  cpu := { registers := {}, config := {} }
  bus :=
    { ram := Ram.zero.store 0 [0x8D, 0x00, 0xD0]
      regions :=
        [.between 0xD000 0xD000
          { read := fun _ _ => (0, { world := () })
            write := fun _ _ _ => { world := (), stop := true } }]
      world := () }

theorem stoppingMachine_endsAt : stoppingMachine.EndsAt 4 1 := by
  have stores : (stoppingMachine.after 0).step.1 = .ok 4 := by rfl
  have requested : (stoppingMachine.after 1).bus.stopRequested = true := by decide +kernel
  refine ⟨(Completes.zero _).succ stores, Or.inl requested, ?_⟩
  intro earlier less
  obtain rfl : earlier = 0 := by omega
  decide +kernel

/-- The stop that is asked for in the step that uses up the budget is reported. -/
theorem stoppingMachine_reports :
    stoppingMachine.EndsAt 4 1 ∧
      (stoppingMachine.run 4).1 = .ok { cycles := 4, reason := .stopRequested } := by
  obtain ⟨reason, finished, reported, -⟩ :=
    (run_least_sufficient stoppingMachine 4).2.1 1 stoppingMachine_endsAt
  have requested : (stoppingMachine.after 1).bus.stopRequested = true := by decide +kernel
  have cycles : stoppingMachine.spent 1 = 4 := by decide +kernel
  refine ⟨stoppingMachine_endsAt, ?_⟩
  rw [finished, cycles, reported.mpr requested]

end Machine

end Nmos6502
