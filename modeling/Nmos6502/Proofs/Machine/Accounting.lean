import Mathlib.Algebra.GroupWithZero.Nat
import Nmos6502.Proofs.Instruction.Accesses
import Nmos6502.Proofs.Machine.Moments
import Nmos6502.Proofs.Machine.Refusal

/-!
# The account of cycles

A completed step adds the cycles that it reports to the counter and a reset adds seven;
nothing else does, and a refused step is not charged (`Moment.charge`).  So after any history
the counter shows the sum of the charges, those of the steps inside runs included, even of a
run that failed later.

The bus takes an access in every cycle at most.  That is no consequence of the account: the
cycles are those of the opcode matrix, and the accesses are what the modes and the mnemonics
make of an instruction.  `decode_accesses_le` compares the two over the whole matrix.
-/

set_option autoImplicit false

namespace Nmos6502

variable {World : Type}

/-! ## The accesses of an instruction -/

def Mode.reads : Mode → Nat
  | implied | accumulator | immediate => 0
  | zeroPage | zeroPageX | zeroPageY | relative => 1
  | absolute | absoluteX | absoluteY => 2
  | indirectX | indirectY => 3
  | indirect => 4

theorem Addressing.length_accesses_resolve (mode : Mode) (registers : Registers)
    (bus : Bus World) : ((resolve mode registers).accesses bus).length = mode.reads := by
  cases mode <;> rfl

namespace Instruction

def dataCount (instruction : Instruction) : Nat :=
  match instruction.mnemonic with
  | .lda | .ldx | .ldy | .sta | .stx | .sty | .adc | .sbc | .cmp | .cpx | .cpy | .and | .ora
  | .eor | .bit | .pha | .php | .pla | .plp => 1
  | .inc | .dec | .jsr | .rts => 2
  | .asl | .lsr | .rol | .ror => if instruction.mode = .accumulator then 0 else 2
  | .rti => 3
  | .brk => 5
  | _ => 0

theorem DataTransfers.length {instruction : Instruction} {registers : Registers}
    {address : Option Word} {data : List Access}
    (transfers : instruction.DataTransfers registers address data) :
    data.length = instruction.dataCount := by
  obtain ⟨mnemonic, mode, cycles, penalty⟩ := instruction
  cases mnemonic with
  | lda | ldx | ldy | adc | sbc | cmp | cpx | cpy | and | ora | eor | bit =>
      obtain ⟨cell, value, -, rfl⟩ := transfers
      rfl
  | sta | stx | sty =>
      obtain ⟨cell, -, rfl⟩ := transfers
      rfl
  | inc | dec =>
      obtain ⟨cell, value, result, -, rfl⟩ := transfers
      rfl
  | asl | lsr | rol | ror =>
      by_cases accumulator : mode = .accumulator
      · simp only [DataTransfers, if_pos accumulator] at transfers
        simp only [dataCount, if_pos accumulator, transfers, List.length_nil]
      · simp only [DataTransfers, if_neg accumulator] at transfers
        obtain ⟨cell, value, result, -, rfl⟩ := transfers
        exact (if_neg accumulator).symm
  | pla | plp =>
      obtain ⟨value, rfl⟩ := transfers
      rfl
  | rts | brk =>
      obtain ⟨low, high, rfl⟩ := transfers
      rfl
  | rti =>
      obtain ⟨saved, low, high, rfl⟩ := transfers
      rfl
  | _ => exact congrArg List.length transfers

end Instruction

theorem decode_accesses_le : ∀ opcode : Byte, ∀ instruction ∈ decode opcode,
    1 + instruction.mode.reads + instruction.dataCount ≤ instruction.cycles := by
  decide +kernel

/-! ## The accesses of a step -/

namespace Machine

theorem accesses_le_of_executes {machine : Machine World} {instruction : Instruction}
    (executes : machine.Executes instruction) :
    (machine.cpu.step.accesses machine.bus).length ≤ machine.cyclesOf instruction := by
  have table := decode_accesses_le _ instruction executes.2
  have least : instruction.cycles ≤ machine.cyclesOf instruction := Nat.le_add_right _ _
  have located := Addressing.length_accesses_resolve instruction.mode
    (machine.cpu.registers.advance 1) machine.fetched
  have data : ((machine.acts instruction).accesses (machine.located instruction.mode).2).length =
      instruction.dataCount :=
    (Instruction.dataTransfers_execute (fits_located executes) _ _ _).length
  rw [accesses_of_executes executes, List.length_cons, List.length_append, located, data]
  omega

theorem accesses_le_of_completed {machine : Machine World} {cycles : Nat}
    (completed : machine.step.1 = .ok cycles) :
    (machine.cpu.step.accesses machine.bus).length ≤ cycles := by
  obtain ⟨kind, requests⟩ | ⟨idle, undocumented⟩ | ⟨instruction, executes⟩ :=
    machine.requests_or_undocumented_or_executes
  · rw [step_of_requests requests] at completed
    obtain rfl := Except.ok.inj completed
    have five : (machine.cpu.step.accesses machine.bus).length = 5 := by
      rw [accesses_of_requests requests, Registers.accesses_enter]
      rfl
    rw [five]
    decide
  · have atLeast := (step_cycles (Prod.ext completed rfl)).1
    rw [accesses_of_undocumented idle undocumented, List.length_singleton]
    omega
  · rw [step_of_executes executes] at completed
    obtain rfl := Except.ok.inj completed
    exact accesses_le_of_executes executes

/-! ## The charges -/

/-- What each request does to the counter, and what the charged ones do on the bus. -/
structure Charges (machine : Machine World) : Prop where
  completed : ∀ cycles, machine.step.1 = .ok cycles →
    2 ≤ cycles ∧ cycles ≤ 7 ∧ machine.step.2.cpu.cycles = machine.cpu.cycles + cycles ∧
      (machine.cpu.step.accesses machine.bus).length ≤ cycles
  refused : ∀ fault, machine.step.1 = .error fault →
    machine.step.2.cpu.cycles = machine.cpu.cycles ∧
      (machine.cpu.step.accesses machine.bus).length = 1
  reset : machine.reset.cpu.cycles = machine.cpu.cycles + 7 ∧
    (machine.cpu.reset.accesses machine.bus).length ≤ 7
  others : ∀ request : Request World, ¬ request.IsRun → request ≠ .step → request ≠ .reset →
    (machine.perform request).2.cpu.cycles = machine.cpu.cycles

theorem charges (machine : Machine World) : machine.Charges := by
  constructor
  case completed =>
    intro cycles completed
    obtain ⟨atLeast, atMost, charged⟩ := step_cycles (Prod.ext completed rfl)
    exact ⟨atLeast, atMost, charged, accesses_le_of_completed completed⟩
  case refused =>
    intro fault failed
    have unchanged := (refuses_of_error failed).unchanged
    exact ⟨unchanged.cycles, congrArg List.length unchanged.accesses⟩
  case reset =>
    have two : (machine.cpu.reset.accesses machine.bus).length = 2 := rfl
    exact ⟨rfl, two ▸ by decide⟩
  case others =>
    intro request single notStep notReset
    cases request with
    | step => exact absurd rfl notStep
    | reset => exact absurd rfl notReset
    | run _ | runSteps _ => exact absurd trivial single
    | _ => rfl

end Machine

namespace Moment

def charge (moment : Moment World) : Nat :=
  match moment.request, moment.reply with
  | .step, .cycles count => count
  | .reset, _ => 7
  | _, _ => 0

def paid (moment : Moment World) : List Access :=
  match moment.request, moment.reply with
  | .step, .cycles _ => moment.accesses
  | .reset, _ => moment.accesses
  | _, _ => []

theorem charged {moment : Moment World} (single : ¬ moment.request.IsRun) :
    moment.after.cpu.cycles = moment.machine.cpu.cycles + moment.charge ∧
      moment.paid.length ≤ moment.charge := by
  obtain ⟨machine, request⟩ := moment
  obtain ⟨completed, refused, reset, others⟩ := machine.charges
  cases request with
  | run _ | runSteps _ => exact absurd trivial single
  | step =>
      have reply : Moment.reply ⟨machine, .step⟩ = .ofExcept .cycles machine.step.1 := rfl
      unfold charge paid
      rw [reply]
      cases outcome : machine.step.1 with
      | ok cycles =>
          obtain ⟨-, -, charged, covered⟩ := completed cycles outcome
          exact ⟨charged, covered⟩
      | error fault => exact ⟨(refused fault outcome).1, Nat.le_refl 0⟩
  | reset => exact reset
  | _ => exact ⟨others _ single (by simp) (by simp), Nat.le_refl 0⟩

end Moment

namespace Machine

/-- Over any course of a machine the counter goes on by the charges, and for each access that
is charged it goes on by one at least. -/
theorem Course.charged {first last : Machine World} {moments : List (Moment World)}
    (course : Course first moments last) :
    last.cpu.cycles = first.cpu.cycles + (moments.map Moment.charge).sum ∧
      first.cpu.cycles + (moments.flatMap Moment.paid).length ≤ last.cpu.cycles := by
  induction course with
  | done _ => exact ⟨rfl, Nat.le_refl _⟩
  | answered _ inductionHypothesis => exact inductionHypothesis
  | @moment machine last request moments single _ inductionHypothesis =>
      obtain ⟨cycles, accesses⟩ := inductionHypothesis
      obtain ⟨charged, covered⟩ := @Moment.charged World ⟨machine, request⟩ single
      have left : (machine.perform request).2.cpu.cycles =
          machine.cpu.cycles + Moment.charge ⟨machine, request⟩ := charged
      rw [List.map_cons, List.sum_cons, List.flatMap_cons, List.length_append]
      omega

/-- From power on the counter shows the cycles of all completed steps, in runs or not, and
seven for each reset.  A completed step takes what it reports, from two to seven cycles, and no
request but a step and a reset takes any; over no part of a history do the completed steps and
the resets make more accesses than the counter goes on. -/
theorem cycles_accounted (config : Config) (world : World) (requests : List (Request World)) :
    ((ofConfig config world).performAll requests).2.cpu.cycles =
        (((ofConfig config world).moments requests).map Moment.charge).sum ∧
      (∀ machine : Machine World, machine.Charges) ∧
      ∀ earlier part later, (ofConfig config world).moments requests = earlier ++ part ++ later →
        ∃ first last, Course (ofConfig config world) earlier first ∧ Course first part last ∧
          last.cpu.cycles = first.cpu.cycles + (part.map Moment.charge).sum ∧
          first.cpu.cycles + (part.flatMap Moment.paid).length ≤ last.cpu.cycles := by
  have course := (ofConfig config world).course_moments requests
  refine ⟨course.charged.1.trans (Nat.zero_add _), charges, ?_⟩
  intro earlier part later split
  rw [split] at course
  obtain ⟨last, before, -⟩ := course.split
  obtain ⟨first, before, during⟩ := before.split
  exact ⟨first, last, before, during, during.charged⟩

/-- A counted run that fails at its third step is charged for the two before. -/
theorem failedRun_charged :
    let requests : List (Request Unit) :=
      [.bus (.load [0xEA, 0xEA, 0x02] 0), .reset, .runSteps 3]
    ((ofConfig {} ()).performAll requests).1 =
        [.bus .done, .done, .fault (.unknownOpcode 0x02 0x0002)] ∧
      ((ofConfig {} ()).performAll requests).2.cpu.cycles = 7 + 2 + 2 := by
  refine ⟨rfl, ?_⟩
  exact (cycles_accounted {} () _).1

end Machine

end Nmos6502
