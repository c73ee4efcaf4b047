import Nmos6502.Machine.Request

/-!
# The moments of a machine

What a host asks for is done in moments: a run and a counted run are carried out as their
steps, one after the other, and every other request is a moment of its own.
`Machine.moments` lists, for a list of requests, each moment with the machine as it was at
that time; so what a single step does can be summed up over a history, and a property of
single steps can be looked for in it.

The moments follow one another and leave out nothing (`Machine.course_moments`): each starts
from the machine that the one before it left, or, where a run has ended in between, from that
machine with its stop request answered.
-/

set_option autoImplicit false

namespace Nmos6502

variable {World : Type}

namespace Bus

/-- The transfers of a request in their order.  Loading and peeking go past the bus. -/
def accessesOf (bus : Bus World) : Request World → List Access
  | .read address => (Program.readByte address).accesses bus
  | .write address value => (Program.writeByte address value).accesses bus
  | .readWord address => (Program.readWord address).accesses bus
  | .readSplit lowAddress highAddress => (Program.readSplit lowAddress highAddress).accesses bus
  | .indirect pointer => (Addressing.indirect pointer).accesses bus
  | .resolve mode registers => (Addressing.resolve mode registers).accesses bus
  | .load _ _ | .peek _ | .map _ | .unmapAll | .regionCount | .describe => []

end Bus

namespace Machine

def Request.IsRun : Request World → Prop
  | .run _ | .runSteps _ => True
  | _ => False

end Machine

structure Moment (World : Type) where
  machine : Machine World
  request : Machine.Request World

namespace Moment

def reply (moment : Moment World) : Machine.Reply :=
  (moment.machine.perform moment.request).1

def after (moment : Moment World) : Machine World :=
  (moment.machine.perform moment.request).2

def accesses (moment : Moment World) : List Access :=
  match moment.request with
  | .step => moment.machine.cpu.step.accesses moment.machine.bus
  | .reset => moment.machine.cpu.reset.accesses moment.machine.bus
  | .push value => (moment.machine.cpu.registers.push value).accesses moment.machine.bus
  | .pull => moment.machine.cpu.registers.pull.accesses moment.machine.bus
  | .bus request => moment.machine.bus.accessesOf request
  | _ => []

end Moment

namespace Machine

/-! ## The moments of a request -/

def stepMoment (machine : Machine World) : Moment World := ⟨machine, .step⟩

/-- The steps of a run that has consumed some cycles of its budget, one that is refused
included. -/
def runMomentsFrom (budget consumed : Nat) (machine : Machine World) : List (Moment World) :=
  if machine.bus.stopRequested then []
  else if _exhausted : budget ≤ consumed then []
  else
    match _steps : machine.step with
    | (.ok cycles, next) => machine.stepMoment :: next.runMomentsFrom budget (consumed + cycles)
    | (.error _, _) => [machine.stepMoment]
termination_by budget - consumed
decreasing_by
  have charged := step_cycles _steps
  omega

def countedMoments : Nat → Machine World → List (Moment World)
  | 0, _ => []
  | count + 1, machine =>
      match machine.step with
      | (.ok _, next) => machine.stepMoment :: next.countedMoments count
      | (.error _, _) => [machine.stepMoment]

def momentsOf (machine : Machine World) : Request World → List (Moment World)
  | .run budget => machine.runMomentsFrom budget 0
  | .runSteps count => machine.countedMoments count
  | request => [⟨machine, request⟩]

def moments (machine : Machine World) : List (Request World) → List (Moment World)
  | [] => []
  | request :: rest => machine.momentsOf request ++ (machine.perform request).2.moments rest

section

variable {budget consumed : Nat} {machine : Machine World}

theorem runMomentsFrom_of_stopRequested (requested : machine.bus.stopRequested = true) :
    machine.runMomentsFrom budget consumed = [] := by
  rw [runMomentsFrom, if_pos requested]

theorem runMomentsFrom_of_exhausted (exhausted : budget ≤ consumed) :
    machine.runMomentsFrom budget consumed = [] := by
  rw [runMomentsFrom, dif_pos exhausted, ite_self]

theorem runMomentsFrom_of_completed {cycles : Nat} {next : Machine World}
    (quiet : machine.bus.stopRequested = false) (remaining : consumed < budget)
    (completes : machine.step = (.ok cycles, next)) :
    machine.runMomentsFrom budget consumed =
      machine.stepMoment :: next.runMomentsFrom budget (consumed + cycles) := by
  rw [runMomentsFrom, if_neg (by simp [quiet]), dif_neg (by omega)]
  split
  · rename_i steps
    obtain ⟨same, rfl⟩ := Prod.mk.inj (completes.symm.trans steps)
    obtain rfl := Except.ok.inj same
    rfl
  · rename_i steps
    exact absurd (completes.symm.trans steps) (by simp)

theorem runMomentsFrom_of_refused {fault : Fault} {next : Machine World}
    (quiet : machine.bus.stopRequested = false) (remaining : consumed < budget)
    (refused : machine.step = (.error fault, next)) :
    machine.runMomentsFrom budget consumed = [machine.stepMoment] := by
  rw [runMomentsFrom, if_neg (by simp [quiet]), dif_neg (by omega)]
  split
  · rename_i steps
    exact absurd (refused.symm.trans steps) (by simp)
  · rfl

end

/-! ## The course of a history -/

/-- The moments lead from the first machine to the last.  No moment is a run, and nothing
happens between two of them but that a run may have answered a stop request. -/
inductive Course : Machine World → List (Moment World) → Machine World → Prop where
  | done (machine : Machine World) : Course machine [] machine
  | answered {machine last : Machine World} {moments : List (Moment World)}
      (rest : Course machine.clearStop moments last) : Course machine moments last
  | moment {machine last : Machine World} {request : Request World}
      {moments : List (Moment World)} (single : ¬ request.IsRun)
      (rest : Course (machine.perform request).2 moments last) :
      Course machine (⟨machine, request⟩ :: moments) last

namespace Course

variable {first middle last : Machine World} {earlier later : List (Moment World)}

theorem trans (before : Course first earlier middle) (after : Course middle later last) :
    Course first (earlier ++ later) last := by
  induction before with
  | done _ => exact after
  | answered _ inductionHypothesis => exact .answered (inductionHypothesis after)
  | moment single _ inductionHypothesis => exact .moment single (inductionHypothesis after)

theorem single {request : Request World} (single : ¬ request.IsRun) (machine : Machine World) :
    Course machine [⟨machine, request⟩] (machine.perform request).2 :=
  .moment single (.done _)

theorem head {moment : Moment World} {moments : List (Moment World)}
    (course : Course first (moment :: moments) last) :
    moment.machine.cpu = first.cpu ∧ ¬ moment.request.IsRun ∧
      Course first [moment] moment.after ∧ Course moment.after moments last := by
  -- A course may begin with any number of answered stop requests.
  generalize listed : moment :: moments = whole at course
  induction course with
  | done _ => cases listed
  | answered _ inner =>
      obtain ⟨same, single, before, after⟩ := inner listed
      exact ⟨same, single, .answered before, after⟩
  | moment notRun rest _ =>
      obtain ⟨rfl, rfl⟩ := List.cons.inj listed
      exact ⟨rfl, notRun, .single notRun _, rest⟩

theorem split (course : Course first (earlier ++ later) last) :
    ∃ middle, Course first earlier middle ∧ Course middle later last := by
  induction earlier generalizing first with
  | nil => exact ⟨first, .done first, course⟩
  | cons moment earlier inductionHypothesis =>
      obtain ⟨-, -, one, rest⟩ := course.head
      obtain ⟨middle, before, after⟩ := inductionHypothesis rest
      exact ⟨middle, one.trans before, after⟩

/-- What the answer to a stop request and every moment keep holds at every moment. -/
theorem invariant {motive : Machine World → Prop} {moments : List (Moment World)}
    (clears : ∀ machine, motive machine → motive machine.clearStop)
    (keeps : ∀ moment ∈ moments, ¬ moment.request.IsRun → motive moment.machine →
      motive moment.after)
    (course : Course first moments last) (holds : motive first) :
    (∀ moment ∈ moments, ¬ moment.request.IsRun ∧ motive moment.machine) ∧ motive last := by
  induction course with
  | done _ => exact ⟨by simp, holds⟩
  | answered _ inductionHypothesis => exact inductionHypothesis keeps (clears _ holds)
  | moment single _ inductionHypothesis =>
      obtain ⟨first, rest⟩ := List.forall_mem_cons.mp keeps
      obtain ⟨each, last⟩ := inductionHypothesis rest (first single holds)
      exact ⟨List.forall_mem_cons.mpr ⟨⟨single, holds⟩, each⟩, last⟩

theorem step {machine next : Machine World} {outcome : Except Fault Nat}
    {moments : List (Moment World)} (steps : machine.step = (outcome, next))
    (rest : Course next moments last) :
    Course machine (machine.stepMoment :: moments) last := by
  refine .moment (fun run => run) ?_
  rwa [show (machine.perform .step).2 = next from congrArg Prod.snd steps]

end Course

theorem course_runFrom (budget consumed : Nat) (machine : Machine World) :
    Course machine (machine.runMomentsFrom budget consumed)
      (machine.runFrom budget consumed).2 := by
  fun_induction runFrom budget consumed machine with
  | case1 consumed machine requested =>
      rw [runMomentsFrom_of_stopRequested requested]
      exact .answered (.done _)
  | case2 consumed machine quiet exhausted =>
      rw [runMomentsFrom_of_exhausted exhausted]
      exact .done _
  | case3 consumed machine quiet remaining cycles next completes inductionHypothesis =>
      rw [runMomentsFrom_of_completed (eq_false_of_ne_true quiet) (Nat.lt_of_not_le remaining)
        completes]
      exact .step completes inductionHypothesis
  | case4 consumed machine quiet remaining fault next refused =>
      rw [runMomentsFrom_of_refused (eq_false_of_ne_true quiet) (Nat.lt_of_not_le remaining)
        refused]
      exact .step refused (.done _)

theorem course_runStepsFrom (consumed count : Nat) (machine : Machine World) :
    Course machine (machine.countedMoments count) (machine.runStepsFrom consumed count).2 := by
  induction count generalizing consumed machine with
  | zero => exact .done machine
  | succ count inductionHypothesis =>
      unfold countedMoments runStepsFrom
      cases steps : machine.step with
      | mk outcome next =>
          cases outcome with
          | ok cycles => exact .step steps (inductionHypothesis _ next)
          | error fault => exact .step steps (.done next)

theorem course_momentsOf (machine : Machine World) (request : Request World) :
    Course machine (machine.momentsOf request) (machine.perform request).2 := by
  cases request with
  | run budget => exact course_runFrom budget 0 machine
  | runSteps count => exact course_runStepsFrom 0 count machine
  | _ => exact .single id machine

theorem course_moments (machine : Machine World) (requests : List (Request World)) :
    Course machine (machine.moments requests) (machine.performAll requests).2 := by
  induction requests generalizing machine with
  | nil => exact .done machine
  | cons request rest inductionHypothesis =>
      exact (machine.course_momentsOf request).trans (inductionHypothesis _)

/-! ## The requests of the moments -/

theorem not_isRun_of_mem_moments {requests : List (Request World)} {machine : Machine World}
    {moment : Moment World} (member : moment ∈ machine.moments requests) :
    ¬ moment.request.IsRun :=
  (((machine.course_moments requests).invariant (motive := fun _ => True) (fun _ _ => trivial)
    (fun _ _ _ _ => trivial) trivial).1 moment member).1

theorem request_of_mem_runMomentsFrom {budget consumed : Nat} {machine : Machine World}
    {moment : Moment World} (member : moment ∈ machine.runMomentsFrom budget consumed) :
    moment.request = .step := by
  fun_induction runMomentsFrom budget consumed machine with
  | case1 | case2 => cases member
  | case3 consumed machine quiet remaining cycles next completes inductionHypothesis =>
      rcases List.mem_cons.mp member with rfl | later
      · rfl
      · exact inductionHypothesis later
  | case4 => rw [List.mem_singleton.mp member, stepMoment]

theorem request_of_mem_countedMoments {count : Nat} {machine : Machine World}
    {moment : Moment World} (member : moment ∈ machine.countedMoments count) :
    moment.request = .step := by
  induction count generalizing machine with
  | zero => cases member
  | succ count inductionHypothesis =>
      unfold countedMoments at member
      split at member
      · rcases List.mem_cons.mp member with rfl | later
        · rfl
        · exact inductionHypothesis later
      · rw [List.mem_singleton.mp member, stepMoment]

theorem request_of_mem_moments {requests : List (Request World)} {machine : Machine World}
    {moment : Moment World} (member : moment ∈ machine.moments requests) :
    moment.request = .step ∨ moment.request ∈ requests := by
  induction requests generalizing machine with
  | nil => cases member
  | cons request rest inductionHypothesis =>
      rcases List.mem_append.mp member with first | later
      · cases request with
        | run budget => exact Or.inl (request_of_mem_runMomentsFrom first)
        | runSteps count => exact Or.inl (request_of_mem_countedMoments first)
        | _ =>
            obtain rfl := List.mem_singleton.mp first
            exact Or.inr (List.mem_cons_self ..)
      · exact (inductionHypothesis later).imp_right (List.mem_cons_of_mem _)

end Machine

end Nmos6502
