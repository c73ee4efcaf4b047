import Nmos6502.Machine.Request
import Nmos6502.Proofs.Machine.Budget

/-!
# Machines that are tuned differently

`Machine.retuned` changes the configuration of a machine and puts its cycle counter ahead.
Where a single step is indifferent to the change, it gives the same outcome and leaves
machines that differ in the same way.  `performAll_retuned` carries this over to any list
of requests in which every step that is taken is an indifferent one; `Machine.Takes` says
which steps these are.
-/

set_option autoImplicit false

namespace Nmos6502

namespace Machine

variable {World : Type}

def retuned (tune : Config → Config) (lead : Nat) (machine : Machine World) : Machine World :=
  { machine with
    cpu :=
      { machine.cpu with
        config := tune machine.cpu.config
        cycles := machine.cpu.cycles + lead } }

/-- The step of the machine does not depend on how it is tuned. -/
def Indifferent (tune : Config → Config) (lead : Nat) : Machine World → Prop :=
  Ignores (retuned tune lead)

/-- In the course of the request, a step is taken from the second machine. -/
inductive Takes (machine : Machine World) : Request World → Machine World → Prop where
  | step : Takes machine .step machine
  | run {budget index : Nat} (completes : machine.Completes index)
      (unfinished : ∀ earlier ≤ index, ¬ machine.Enough budget earlier) :
      Takes machine (.run budget) (machine.after index)
  | runSteps {count index : Nat} (completes : machine.Completes index) (within : index < count) :
      Takes machine (.runSteps count) (machine.after index)

def EachStep (property : Machine World → Prop) (machine : Machine World) :
    List (Request World) → Prop
  | [] => True
  | request :: rest =>
      (∀ stepping, machine.Takes request stepping → property stepping) ∧
        (machine.perform request).2.EachStep property rest

theorem EachStep.imp {property weaker : Machine World → Prop} {machine : Machine World}
    {requests : List (Request World)} (each : machine.EachStep property requests)
    (implies : ∀ stepping, property stepping → weaker stepping) :
    machine.EachStep weaker requests := by
  induction requests generalizing machine with
  | nil => trivial
  | cons request rest inductionHypothesis =>
      obtain ⟨first, later⟩ := each
      exact ⟨fun stepping takes => implies stepping (first stepping takes),
        inductionHypothesis later⟩

/-! ## Steps in succession -/

section

variable {tune : Config → Config} {lead count budget : Nat} {machine : Machine World}

theorem enough_retuned
    (steady : ∀ index < count, (machine.after index).Indifferent tune lead) :
    (machine.retuned tune lead).Enough budget count ↔ machine.Enough budget count := by
  rw [Enough, after_of_ignores steady, spent_of_ignores steady]
  rfl

theorem EndsAt.retuned (ends : machine.EndsAt budget count)
    (steady : ∀ index < count, (machine.after index).Indifferent tune lead) :
    (machine.retuned tune lead).EndsAt budget count where
  completes := ends.completes.of_ignores steady
  enough := (enough_retuned steady).mpr ends.enough
  least earlier less := by
    rw [enough_retuned fun index before => steady index (Nat.lt_trans before less)]
    exact ends.least earlier less

theorem RefusedAt.retuned {fault : Fault} (refused : machine.RefusedAt budget count fault)
    (steady : ∀ index ≤ count, (machine.after index).Indifferent tune lead) :
    (machine.retuned tune lead).RefusedAt budget count fault where
  fails := refused.fails.of_ignores steady
  unfinished earlier atMost := by
    rw [enough_retuned fun index less => steady index (Nat.le_trans (Nat.le_of_lt less) atMost)]
    exact refused.unfinished earlier atMost

/-! ## Requests -/

theorem run_retuned
    (steady : ∀ stepping, machine.Takes (.run budget) stepping →
      stepping.Indifferent tune lead) :
    (machine.retuned tune lead).run budget =
      ((machine.run budget).1, (machine.run budget).2.retuned tune lead) := by
  obtain ⟨count, -, ends⟩ | ⟨count, -, fault, refused⟩ := machine.endsAt_or_refusedAt budget
  · have indifferent : ∀ index < count, (machine.after index).Indifferent tune lead :=
      fun index less => steady _ (.run (ends.completes.of_le (Nat.le_of_lt less))
        fun earlier atMost => ends.least earlier (Nat.lt_of_le_of_lt atMost less))
    rw [run_of_endsAt (ends.retuned indifferent), run_of_endsAt ends, after_of_ignores indifferent,
      spent_of_ignores indifferent]
    rfl
  · have indifferent : ∀ index ≤ count, (machine.after index).Indifferent tune lead :=
      fun index atMost => steady _ (.run (refused.fails.completes.of_le atMost)
        fun earlier before => refused.unfinished earlier (Nat.le_trans before atMost))
    rw [run_of_refusedAt (refused.retuned indifferent), run_of_refusedAt refused,
      after_of_ignores fun index less => indifferent index (Nat.le_of_lt_succ less)]

theorem runSteps_retuned
    (steady : ∀ stepping, machine.Takes (.runSteps count) stepping →
      stepping.Indifferent tune lead) :
    (machine.retuned tune lead).runSteps count =
      ((machine.runSteps count).1, (machine.runSteps count).2.retuned tune lead) :=
  runSteps_of_ignores fun _ within completes => steady _ (.runSteps completes within)

theorem reset_retuned (keepsSp : ∀ config, (tune config).resetSp = config.resetSp) :
    (machine.retuned tune lead).reset = machine.reset.retuned tune lead := by
  simp only [reset, Cpu.reset, retuned, Program.bind_eq, Program.run_bind, Program.pure_eq,
    Program.run_done, keepsSp, Nat.add_right_comm]

def Reply.retuned (tune : Config → Config) : Reply → Reply
  | .config value => .config (tune value)
  | reply => reply

theorem Reply.retuned_cycles (outcome : Except Fault Nat) :
    (Reply.ofExcept .cycles outcome).retuned tune = Reply.ofExcept .cycles outcome := by
  cases outcome <;> rfl

theorem Reply.retuned_summary (outcome : Except Fault RunSummary) :
    (Reply.ofExcept .summary outcome).retuned tune = Reply.ofExcept .summary outcome := by
  cases outcome <;> rfl

theorem perform_retuned {request : Request World}
    (keepsSp : ∀ config, (tune config).resetSp = config.resetSp)
    (steady : ∀ stepping, machine.Takes request stepping → stepping.Indifferent tune lead) :
    (machine.retuned tune lead).perform request =
      ((machine.perform request).1.retuned tune,
        (machine.perform request).2.retuned tune lead) := by
  cases request with
  | step =>
      have same : (machine.retuned tune lead).step = _ := steady machine .step
      simp only [perform, same, Prod.map, Reply.retuned_cycles, id_eq]
  | run budget => simp only [perform, run_retuned steady, Prod.map, Reply.retuned_summary, id_eq]
  | runSteps count =>
      simp only [perform, runSteps_retuned steady, Prod.map, Reply.retuned_cycles, id_eq]
  | reset => simp only [perform, reset_retuned keepsSp, Reply.retuned]
  | _ => rfl

theorem performAll_retuned {requests : List (Request World)}
    (keepsSp : ∀ config, (tune config).resetSp = config.resetSp)
    (each : machine.EachStep (Indifferent tune lead) requests) :
    (machine.retuned tune lead).performAll requests =
      ((machine.performAll requests).1.map (Reply.retuned tune),
        (machine.performAll requests).2.retuned tune lead) := by
  induction requests generalizing machine with
  | nil => rfl
  | cons request rest inductionHypothesis =>
      obtain ⟨first, later⟩ := each
      simp only [performAll, perform_retuned keepsSp first, inductionHypothesis later,
        List.map_cons]

end

end Machine

end Nmos6502
