import Mathlib.Data.List.Forall2
import Nmos6502.Proofs.Machine.Moments

/-!
# Machines that are alike

Two machines may differ in something that does not matter for what they are asked to do.
Such a relation between machines is given here as `like`, and a moment is indifferent to it
if the request of that moment has the same reply and the same transfers on every machine
that is like the one of the moment, and leaves machines that are alike again
(`Moment.Indifferent`).

If every moment of a history is indifferent, the history is the same from two machines that
are alike: `performAll_alike` carries this from single steps to runs of any length, whose
number of steps is decided on the way.
-/

set_option autoImplicit false

namespace Nmos6502

variable {World : Type}

/-- Alike machines heed the same stop request, and stay alike when it is answered. -/
structure Likeness (like : Machine World → Machine World → Prop) : Prop where
  stopRequested {machine other : Machine World} (alike : like machine other) :
    other.bus.stopRequested = machine.bus.stopRequested
  clearStop {machine other : Machine World} (alike : like machine other) :
    like machine.clearStop other.clearStop

namespace Moment

def on (moment : Moment World) (other : Machine World) : Moment World :=
  { moment with machine := other }

/-- The same request at another moment, with the same reply and the same transfers, from a
machine that is alike. -/
structure Agrees (like : Machine World → Machine World → Prop) (moment other : Moment World) :
    Prop where
  request : other.request = moment.request
  reply : other.reply = moment.reply
  accesses : other.accesses = moment.accesses
  alike : like moment.machine other.machine

def Indifferent (like : Machine World → Machine World → Prop) (moment : Moment World) : Prop :=
  ∀ other, like moment.machine other →
    moment.Agrees like (moment.on other) ∧ like moment.after (moment.on other).after

end Moment

namespace Machine

variable {like : Machine World → Machine World → Prop}

theorem Reply.ofExcept_cycles_inj {first second : Except Fault Nat}
    (same : ofExcept .cycles first = ofExcept .cycles second) : first = second := by
  cases first <;> cases second <;> simp_all [ofExcept]

theorem step_alike {machine other next : Machine World} {outcome : Except Fault Nat}
    (indifferent : machine.stepMoment.Indifferent like) (alike : like machine other)
    (steps : machine.step = (outcome, next)) :
    ∃ after, other.step = (outcome, after) ∧ like next after ∧
      machine.stepMoment.Agrees like other.stepMoment := by
  obtain ⟨agrees, after⟩ := indifferent other alike
  have result : other.step.1 = machine.step.1 := Reply.ofExcept_cycles_inj agrees.reply
  rw [steps] at result
  have left : machine.stepMoment.after = next := congrArg Prod.snd steps
  exact ⟨other.step.2, Prod.ext result rfl, left ▸ after, agrees⟩

/-- What is the same about two histories: the replies, moment by moment what is asked and
done, and the likeness of the machines that are left. -/
structure SameCourse {α : Type} (like : Machine World → Machine World → Prop)
    (first second : α × Machine World) (moments others : List (Moment World)) : Prop where
  reply : second.1 = first.1
  moments : List.Forall₂ (Moment.Agrees like) moments others
  alike : like first.2 second.2

theorem runFrom_alike (likeness : Likeness like) {budget consumed : Nat}
    {machine other : Machine World}
    (each : ∀ moment ∈ machine.runMomentsFrom budget consumed, moment.Indifferent like)
    (alike : like machine other) :
    SameCourse like (machine.runFrom budget consumed) (other.runFrom budget consumed)
      (machine.runMomentsFrom budget consumed) (other.runMomentsFrom budget consumed) := by
  fun_induction runFrom budget consumed machine generalizing other with
  | case1 consumed machine requested =>
      have also := (likeness.stopRequested alike).trans requested
      rw [runFrom_of_stopRequested also, runMomentsFrom_of_stopRequested requested,
        runMomentsFrom_of_stopRequested also]
      exact ⟨rfl, .nil, likeness.clearStop alike⟩
  | case2 consumed machine quiet exhausted =>
      have also := (likeness.stopRequested alike).trans (eq_false_of_ne_true quiet)
      rw [runFrom_of_exhausted also exhausted, runMomentsFrom_of_exhausted exhausted,
        runMomentsFrom_of_exhausted exhausted]
      exact ⟨rfl, .nil, alike⟩
  | case3 consumed machine quiet remaining cycles next completes inductionHypothesis =>
      have also := (likeness.stopRequested alike).trans (eq_false_of_ne_true quiet)
      have left := Nat.lt_of_not_le remaining
      rw [runMomentsFrom_of_completed (eq_false_of_ne_true quiet) left completes] at each ⊢
      obtain ⟨first, rest⟩ := List.forall_mem_cons.mp each
      obtain ⟨after, steps, still, agrees⟩ := step_alike first alike completes
      obtain ⟨reply, later, last⟩ := inductionHypothesis rest still
      rw [runFrom_of_completed also left steps, runMomentsFrom_of_completed also left steps]
      exact ⟨reply, .cons agrees later, last⟩
  | case4 consumed machine quiet remaining fault next refused =>
      have also := (likeness.stopRequested alike).trans (eq_false_of_ne_true quiet)
      have left := Nat.lt_of_not_le remaining
      rw [runMomentsFrom_of_refused (eq_false_of_ne_true quiet) left refused] at each ⊢
      obtain ⟨after, steps, still, agrees⟩ :=
        step_alike (each _ (List.mem_singleton_self _)) alike refused
      rw [runFrom_of_refused also left steps, runMomentsFrom_of_refused also left steps]
      exact ⟨rfl, .cons agrees .nil, still⟩

theorem runStepsFrom_alike {consumed count : Nat} {machine other : Machine World}
    (each : ∀ moment ∈ machine.countedMoments count, moment.Indifferent like)
    (alike : like machine other) :
    SameCourse like (machine.runStepsFrom consumed count) (other.runStepsFrom consumed count)
      (machine.countedMoments count) (other.countedMoments count) := by
  induction count generalizing consumed machine other with
  | zero => exact ⟨rfl, .nil, alike⟩
  | succ count inductionHypothesis =>
      unfold countedMoments at each ⊢
      unfold runStepsFrom
      cases steps : machine.step with
      | mk outcome next =>
          simp only [steps] at each
          cases outcome with
          | ok cycles =>
              obtain ⟨first, rest⟩ := List.forall_mem_cons.mp each
              obtain ⟨after, also, still, agrees⟩ := step_alike first alike steps
              obtain ⟨reply, later, last⟩ :=
                @inductionHypothesis (consumed + cycles) next after rest still
              rw [also]
              exact ⟨reply, .cons agrees later, last⟩
          | error fault =>
              obtain ⟨after, also, still, agrees⟩ :=
                step_alike (each _ (List.mem_singleton_self _)) alike steps
              rw [also]
              exact ⟨rfl, .cons agrees .nil, still⟩

theorem perform_alike (likeness : Likeness like) {request : Request World}
    {machine other : Machine World}
    (each : ∀ moment ∈ machine.momentsOf request, moment.Indifferent like)
    (alike : like machine other) :
    SameCourse like (machine.perform request) (other.perform request)
      (machine.momentsOf request) (other.momentsOf request) := by
  cases request with
  | run budget =>
      obtain ⟨reply, moments, last⟩ := runFrom_alike likeness each alike
      exact ⟨congrArg (Reply.ofExcept .summary) reply, moments, last⟩
  | runSteps count =>
      obtain ⟨reply, moments, last⟩ := @runStepsFrom_alike World like 0 _ _ _ each alike
      exact ⟨congrArg (Reply.ofExcept .cycles) reply, moments, last⟩
  | _ =>
      obtain ⟨agrees, last⟩ := each _ (List.mem_singleton_self _) other alike
      exact ⟨agrees.reply, .cons agrees .nil, last⟩

/-- A history whose moments are all indifferent is the same from machines that are alike. -/
theorem performAll_alike (likeness : Likeness like) {requests : List (Request World)}
    {machine other : Machine World}
    (each : ∀ moment ∈ machine.moments requests, moment.Indifferent like)
    (alike : like machine other) :
    SameCourse like (machine.performAll requests) (other.performAll requests)
      (machine.moments requests) (other.moments requests) := by
  induction requests generalizing machine other with
  | nil => exact ⟨rfl, .nil, alike⟩
  | cons request rest inductionHypothesis =>
      rw [moments, List.forall_mem_append] at each
      obtain ⟨reply, first, still⟩ := perform_alike likeness each.1 alike
      obtain ⟨replies, later, last⟩ := inductionHypothesis each.2 still
      exact ⟨List.cons_eq_cons.mpr ⟨reply, replies⟩, List.rel_append first later, last⟩

end Machine

end Nmos6502
