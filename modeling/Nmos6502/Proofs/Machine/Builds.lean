import Mathlib.Data.PFun
import Nmos6502.Proofs.Machine.Accounting
import Nmos6502.Proofs.Width.Step

/-!
# Builds of the machine

The same machine can be built with an arithmetic that stops at a result too large for its type or
with one that loses the high bits, and for hosts whose sizes have one width or another (`Build`).
A build does what the machine is asked for with the calculations of fixed width in the place of
exact numbers.  Whatever its arithmetic stops gives no result, and neither does a run that never
ends.

Of all that is added up only the cycles are without a bound, so as long as their total does not
reach the modulus of 64 bits, every build gives the replies of the machine and leaves the machine
that it leaves (`Build.performAll_eq`).  The cycles that a single run has consumed are no more
than those of all time.
-/

set_option autoImplicit false

namespace Nmos6502

variable {World : Type}

theorem Machine.Course.cycles_le {first last : Machine World} {moments : List (Moment World)}
    (course : Course first moments last) : first.cpu.cycles ≤ last.cpu.cycles :=
  course.charged.1 ▸ Nat.le_add_right _ _

def Machine.settled (machine : Machine World) :
    Except Fault Completed × Bus World → Except Fault Nat × Machine World
  | (.ok completed, bus) => (.ok completed.cycles, { cpu := completed.cpu, bus })
  | (.error fault, bus) => (.error fault, { machine with bus })

theorem Machine.step_eq_settled (machine : Machine World) :
    machine.step = machine.settled (machine.cpu.step.run machine.bus) := rfl

/-- What a host makes of results that do not fit, and the width of its sizes, which can count the
cells of memory. -/
structure Build where
  arithmetic : Arithmetic
  sizeWidth : Nat
  countsMemory : 16 < sizeWidth

namespace Build

variable (build : Build)

/-- No host has an image longer than half the numbers of its size type. -/
def Admits : Machine.Request World → Prop
  | .bus (.load image _) => image.length < 2 ^ (build.sizeWidth - 1)
  | _ => True

/-! ## What a build does -/

def load (bus : Bus World) (image : List Byte) (start : Word) :
    Option (Bus.Reply × Bus World) := do
  let behind ← build.arithmetic.settle (.unsigned build.sizeWidth) (start.toNat + image.length)
  if behind ≤ 0x10000 then
    if behind - start.toNat = image.length then
      some (.done, { bus with ram := bus.ram.store start image })
    else none
  else some (.fault (.loadOutOfRange start image.length), bus)

def performBus (bus : Bus World) : Bus.Request World → Option (Bus.Reply × Bus World)
  | .load image start => build.load bus image start
  | .resolve mode registers =>
      ((Calculation.resolve mode registers).run build.arithmetic bus).map (Prod.map .operand id)
  | request => some (bus.perform request)

def step (machine : Machine World) : Option (Except Fault Nat × Machine World) :=
  ((Calculation.step machine.cpu).run build.arithmetic machine.bus).map machine.settled

def reset (machine : Machine World) : Option (Machine World) :=
  ((Calculation.reset machine.cpu).run build.arithmetic machine.bus).map
    fun (cpu, bus) => { cpu, bus }

def runTurn (budget : Nat) :
    Nat × Machine World →
      Option ((Except Fault RunSummary × Machine World) ⊕ (Nat × Machine World))
  | (consumed, machine) =>
      if machine.bus.stopRequested then
        some (.inl (.ok { cycles := consumed, reason := .stopRequested }, machine.clearStop))
      else if budget ≤ consumed then
        some (.inl (.ok { cycles := consumed, reason := .budgetExhausted }, machine))
      else do
        match ← build.step machine with
        | (.ok cycles, next) => do
            let total ← build.arithmetic.settle (.unsigned 64) (consumed + cycles)
            some (.inr (total.toNat, next))
        | (.error fault, next) => some (.inl (.error fault, next))

/-- Takes turns until one reports.  Where the cycles consumed lose their high bits, this may never
happen. -/
def runFrom (budget consumed : Nat) (machine : Machine World) :
    Part (Except Fault RunSummary × Machine World) :=
  PFun.fix (fun point => .ofOption (build.runTurn budget point)) (consumed, machine)

def runStepsFrom (consumed : Nat) :
    Nat → Machine World → Option (Except Fault Nat × Machine World)
  | 0, machine => some (.ok consumed, machine)
  | count + 1, machine => do
      match ← build.step machine with
      | (.ok cycles, next) => do
          let total ← build.arithmetic.settle (.unsigned 64) (consumed + cycles)
          runStepsFrom total.toNat count next
      | (.error fault, next) => some (.error fault, next)

def perform (machine : Machine World) :
    Machine.Request World → Part (Machine.Reply × Machine World)
  | .step => (Part.ofOption (build.step machine)).map (Prod.map (.ofExcept .cycles) id)
  | .run budget => (build.runFrom budget 0 machine).map (Prod.map (.ofExcept .summary) id)
  | .runSteps count =>
      (Part.ofOption (build.runStepsFrom 0 count machine)).map (Prod.map (.ofExcept .cycles) id)
  | .reset => (Part.ofOption (build.reset machine)).map fun next => (.done, next)
  | .bus request =>
      (Part.ofOption (build.performBus machine.bus request)).map
        (Prod.map .bus fun bus => { machine with bus })
  | request => .some (machine.perform request)

def performAll (machine : Machine World) :
    List (Machine.Request World) → Part (List Machine.Reply × Machine World)
  | [] => .some ([], machine)
  | request :: rest => do
      let (reply, machine) ← build.perform machine request
      let (replies, machine) ← performAll machine rest
      return (reply :: replies, machine)

/-! ## A build and the machine -/

variable {build} {machine : Machine World}

theorem fits_span {image : List Byte} (short : image.length < 2 ^ (build.sizeWidth - 1))
    (start : Word) :
    (IntegerType.unsigned build.sizeWidth).Fits (start.toNat + image.length) := by
  obtain ⟨more, width⟩ := Nat.exists_eq_add_of_lt build.countsMemory
  rw [width, Nat.add_sub_cancel] at short
  have startBound := start.isLt
  have least : 2 ^ 16 ≤ 2 ^ (16 + more) := Nat.pow_le_pow_right (by decide) (Nat.le_add_right ..)
  have below : start.toNat + image.length < 2 ^ (16 + more + 1) := by
    rw [Nat.pow_succ]
    omega
  rw [IntegerType.fits_unsigned, width]
  exact ⟨by omega, by exact_mod_cast below⟩

theorem fits_length (instruction : Instruction) :
    (IntegerType.unsigned 16).Fits instruction.length := by
  unfold Instruction.length
  cases instruction.mode <;> decide

theorem withinTotal_iff (within : machine.cpu.cycles < 2 ^ 64) :
    Calculation.WithinTotal (machine.cpu.step.run machine.bus).1 ↔
      machine.step.2.cpu.cycles < 2 ^ 64 := by
  rw [Machine.step_eq_settled]
  obtain ⟨outcome, bus⟩ := machine.cpu.step.run machine.bus
  cases outcome with
  | ok completed =>
      exact ⟨fun total => total completed rfl, fun total _ same => Except.ok.inj same ▸ total⟩
  | error fault => exact iff_of_true (by rintro completed ⟨⟩) within

theorem step_eq (total : machine.step.2.cpu.cycles < 2 ^ 64) :
    build.step machine = some machine.step := by
  have within := Nat.lt_of_le_of_lt (machine.course_momentsOf .step).cycles_le total
  rw [step, (Calculation.computes_step machine.cpu).run build.arithmetic
    ((withinTotal_iff within).mpr total), Machine.step_eq_settled, Option.map_some]

/-- Checked arithmetic stops a step that takes the cycles of all time to the modulus of their type,
and no other. -/
theorem step_eq_none_iff (checked : build.arithmetic = .checked)
    (within : machine.cpu.cycles < 2 ^ 64) :
    build.step machine = none ↔ 2 ^ 64 ≤ machine.step.2.cpu.cycles := by
  rw [step, checked, Option.map_eq_none_iff,
    (Calculation.computes_step machine.cpu).run_checked_eq_none_iff, withinTotal_iff within, not_lt]

theorem reset_eq (total : machine.reset.cpu.cycles < 2 ^ 64) :
    build.reset machine = some machine.reset := by
  rw [reset, (Calculation.computes_reset machine.cpu).run build.arithmetic total]
  rfl

section

variable {budget consumed cycles : Nat} {next : Machine World}

theorem step_eq_of_steps {outcome : Except Fault Nat} (steps : machine.step = (outcome, next))
    (total : next.cpu.cycles < 2 ^ 64) : build.step machine = some (outcome, next) := by
  rw [step_eq (by rwa [steps]), steps]

theorem settle_consumed (arithmetic : Arithmetic) (completes : machine.step = (.ok cycles, next))
    (total : next.cpu.cycles < 2 ^ 64) (within : consumed ≤ machine.cpu.cycles) :
    arithmetic.settle (.unsigned 64) (consumed + cycles) = some (consumed + cycles : Int) ∧
      consumed + cycles ≤ next.cpu.cycles := by
  have charged := (Machine.step_cycles completes).2.2
  refine ⟨arithmetic.settle_of_fits (IntegerType.fits_unsigned.mpr ?_), ?_⟩ <;> omega

theorem runFrom_of_report {report : Except Fault RunSummary × Machine World}
    (turn : build.runTurn budget (consumed, machine) = some (.inl report)) :
    build.runFrom budget consumed machine = .some report :=
  Part.eq_some_iff.mpr (PFun.fix_stop (Part.mem_ofOption.mpr turn))

theorem runFrom_of_step {total : Nat}
    (turn : build.runTurn budget (consumed, machine) = some (.inr (total, next))) :
    build.runFrom budget consumed machine = build.runFrom budget total next :=
  PFun.fix_fwd_eq (Part.mem_ofOption.mpr turn)

theorem runFrom_eq (total : (machine.runFrom budget consumed).2.cpu.cycles < 2 ^ 64)
    (within : consumed ≤ machine.cpu.cycles) :
    build.runFrom budget consumed machine = .some (machine.runFrom budget consumed) := by
  fun_induction Machine.runFrom budget consumed machine with
  | case1 consumed machine requested =>
      exact runFrom_of_report (by rw [runTurn, if_pos requested])
  | case2 consumed machine quiet exhausted =>
      exact runFrom_of_report (by rw [runTurn, if_neg quiet, if_pos exhausted])
  | case3 consumed machine quiet remaining cycles next completes inductionHypothesis =>
      have below := Nat.lt_of_le_of_lt
        (Machine.course_runFrom budget (consumed + cycles) next).cycles_le total
      obtain ⟨settled, stillWithin⟩ := settle_consumed build.arithmetic completes below within
      have turn : build.runTurn budget (consumed, machine) =
          some (.inr (consumed + cycles, next)) := by
        rw [runTurn, if_neg quiet, if_neg remaining, step_eq_of_steps completes below]
        change (build.arithmetic.settle _ _).bind _ = _
        rw [settled]
        rfl
      rw [runFrom_of_step turn]
      exact inductionHypothesis total stillWithin
  | case4 consumed machine quiet remaining fault next refused =>
      refine runFrom_of_report ?_
      rw [runTurn, if_neg quiet, if_neg remaining, step_eq_of_steps refused total]
      rfl

theorem runStepsFrom_eq {count : Nat}
    (total : (machine.runStepsFrom consumed count).2.cpu.cycles < 2 ^ 64)
    (within : consumed ≤ machine.cpu.cycles) :
    build.runStepsFrom consumed count machine = some (machine.runStepsFrom consumed count) := by
  induction count generalizing consumed machine with
  | zero => rfl
  | succ count inductionHypothesis =>
      rw [Machine.runStepsFrom] at total ⊢
      rw [runStepsFrom]
      cases steps : machine.step with
      | mk outcome next =>
          rw [steps] at total
          cases outcome with
          | error fault =>
              rw [step_eq_of_steps steps total]
              rfl
          | ok cycles =>
              have below := Nat.lt_of_le_of_lt
                (Machine.course_runStepsFrom (consumed + cycles) count next).cycles_le total
              obtain ⟨settled, stillWithin⟩ := settle_consumed build.arithmetic steps below within
              rw [step_eq_of_steps steps below]
              change (build.arithmetic.settle _ _).bind _ = _
              rw [settled]
              exact inductionHypothesis total stillWithin

end

theorem performBus_eq {bus : Bus World} {request : Bus.Request World}
    (admitted : build.Admits (.bus request)) :
    build.performBus bus request = some (bus.perform request) := by
  cases request with
  | load image start =>
      rw [performBus, load, build.arithmetic.settle_of_fits (fits_span admitted start),
        Bus.perform, Bus.load]
      change (if _ then if _ then _ else _ else _) = _
      by_cases fits : start.toNat + image.length ≤ 0x10000
      · rw [if_pos fits, if_pos (by omega), if_pos (by omega)]
      · rw [if_neg fits, if_neg (by omega)]
  | resolve mode registers =>
      have computes := Calculation.computes_resolve mode registers
      rw [performBus, Calculation.run_of_exact build.arithmetic (computes.exact bus),
        computes.exactly]
      rfl
  | _ => rfl

theorem perform_eq {request : Machine.Request World} (admitted : build.Admits request)
    (total : (machine.perform request).2.cpu.cycles < 2 ^ 64) :
    build.perform machine request = .some (machine.perform request) := by
  cases request with
  | step =>
      rw [perform, step_eq total]
      exact Part.map_some _ _
  | run budget =>
      rw [perform, runFrom_eq total (Nat.zero_le _)]
      exact Part.map_some _ _
  | runSteps count =>
      rw [perform, runStepsFrom_eq total (Nat.zero_le _)]
      exact Part.map_some _ _
  | reset =>
      rw [perform, reset_eq total]
      exact Part.map_some _ _
  | bus request =>
      rw [perform, performBus_eq admitted]
      exact Part.map_some _ _
  | _ => rfl

theorem performAll_eq {requests : List (Machine.Request World)}
    (admitted : ∀ request ∈ requests, build.Admits request)
    (total : (machine.performAll requests).2.cpu.cycles < 2 ^ 64) :
    build.performAll machine requests = .some (machine.performAll requests) := by
  induction requests generalizing machine with
  | nil => rfl
  | cons request rest inductionHypothesis =>
      obtain ⟨first, others⟩ := List.forall_mem_cons.mp admitted
      have below := Nat.lt_of_le_of_lt
        ((machine.perform request).2.course_moments rest).cycles_le total
      have later : build.performAll (machine.perform request).2 rest =
          .some ((machine.perform request).2.performAll rest) := inductionHypothesis others total
      rw [performAll, perform_eq first below]
      change (Part.some _).bind _ = _
      rw [Part.bind_some]
      change (build.performAll (machine.perform request).2 rest).bind _ = _
      rw [later]
      exact Part.bind_some _ _

/-! ## Exactness -/

/-- Each sum and each difference fits its type, whatever the bytes, the operand, the registers,
the configuration and the bus, and the calculation over whole numbers is what the processor
does. -/
structure Exact (build : Build) : Prop where
  addition : ∀ decimal accumulator operand status,
    (Calculation.add decimal accumulator operand status).Computes
      (.done (Alu.add decimal accumulator operand status))
  subtraction : ∀ decimal accumulator operand status,
    (Calculation.subtract decimal accumulator operand status).Computes
      (.done (Alu.subtract decimal accumulator operand status))
  indexing : ∀ base index,
    (Calculation.indexed base index).Computes (.done (Operand.indexed base index))
  time : ∀ opcode, ∀ instruction ∈ decode opcode, ∀ operand status,
    (Calculation.totalCycles instruction operand status).Computes
      (.done (instruction.totalCycles operand status : Int))
  length : ∀ instruction : Instruction, (IntegerType.unsigned 16).Fits instruction.length
  step : ∀ cpu, (Calculation.step cpu).ComputesWithin Calculation.WithinTotal cpu.step
  reset : ∀ cpu,
    (Calculation.reset cpu).ComputesWithin (fun last => last.cycles < 2 ^ 64) cpu.reset
  span : ∀ (start : Word) (image : List Byte), image.length < 2 ^ (build.sizeWidth - 1) →
    (IntegerType.unsigned build.sizeWidth).Fits (start.toNat + image.length)

theorem exact (build : Build) : build.Exact where
  addition := Calculation.computes_add
  subtraction := Calculation.computes_subtract
  indexing := Calculation.computes_indexed
  time := fun _ _ documented => Calculation.computes_totalCycles documented
  length := fits_length
  step := Calculation.computes_step
  reset := Calculation.computes_reset
  span := fun start _ short => fits_span short start

/-- Every sum and difference of the processor is exact in its type.  So, as long as the cycles of
all time stay below the modulus of 64 bits, a build stops at no request, whatever its arithmetic,
and all builds give the same replies and leave the same machine.  The cycles of all time are also
the only bound: checked arithmetic stops a step that takes them to the modulus. -/
theorem builds_agree (build : Build) :
    build.Exact ∧
    (∀ {World : Type} (machine : Machine World) (requests : List (Machine.Request World)),
      (∀ request ∈ requests, build.Admits request) →
      (machine.performAll requests).2.cpu.cycles < 2 ^ 64 →
        build.performAll machine requests = .some (machine.performAll requests)) ∧
    ∀ {World : Type} (machine : Machine World), build.arithmetic = .checked →
      machine.cpu.cycles < 2 ^ 64 →
        (build.step machine = none ↔ 2 ^ 64 ≤ machine.step.2.cpu.cycles) :=
  ⟨build.exact, fun _ _ admitted total => performAll_eq admitted total,
    fun _ checked within => step_eq_none_iff checked within⟩

def lateMachine : Machine Unit where
  cpu := { Cpu.ofConfig {} with cycles := 2 ^ 64 - 21 }
  bus := { world := () }

/-- The largest decimal sum, its difference, and an index that leaves a page and memory, in 13
cycles; seven more for a reset.  There is no cycle left for the break that comes next. -/
def lateRequests : List (Machine.Request Unit) :=
  [.bus (.load [0xF8, 0x38, 0x69, 0xFF, 0xE9, 0xFF, 0xBD, 0xFF, 0xFF] 0x0200),
    .setRegisters { a := 0xFF, x := 0xFF, pc := 0x0200 }, .runSteps 5, .push 0x42, .pull, .reset]

def checkedBuild : Build where
  arithmetic := .checked
  sizeWidth := 64
  countsMemory := by decide

theorem lateMachine_agrees :
    (lateMachine.performAll lateRequests).2.cpu.cycles = 2 ^ 64 - 1 ∧
      (checkedBuild.performAll lateMachine lateRequests).map Prod.fst =
        .some [.bus .done, .done, .cycles 13, .done, .byte 0x42, .done] ∧
      checkedBuild.step (lateMachine.performAll lateRequests).2 = none := by
  have admitted : ∀ request ∈ lateRequests, checkedBuild.Admits request := by
    simp [lateRequests, Admits, checkedBuild]
  have last : (lateMachine.performAll lateRequests).2.cpu.cycles = 2 ^ 64 - 1 := by rfl
  have replies : (lateMachine.performAll lateRequests).1 =
      [.bus .done, .done, .cycles 13, .done, .byte 0x42, .done] := by rfl
  have next : (lateMachine.performAll lateRequests).2.step.2.cpu.cycles = 2 ^ 64 + 6 := by rfl
  obtain ⟨-, agrees, stops⟩ := builds_agree checkedBuild
  refine ⟨last, ?_, (stops _ rfl (by rw [last]; decide)).mpr (by rw [next]; decide)⟩
  rw [agrees lateMachine lateRequests admitted (by rw [last]; decide), Part.map_some, replies]

end Build

end Nmos6502
