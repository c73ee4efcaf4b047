import Nmos6502.Proofs.Instruction.ControlFlow
import Nmos6502.Proofs.Machine.Steps

/-!
# Straight-line code

Code that lies in memory line after line runs line after line, as long as every line goes on behind
itself and none of them writes into the code (`runs_code`).  The code may start anywhere; what does
not fit at the end of memory lies at its start.
-/

set_option autoImplicit false

namespace Nmos6502

variable {World : Type}

/-- An instruction behind which control goes on, with the bytes that encode it. -/
structure Line where
  instruction : Instruction
  opcode : Byte
  operand : List Byte
  documented : decode opcode = some instruction
  complete : operand.length = instruction.mode.operandLength
  sequential : instruction.mnemonic.sequential = true

namespace Line

def bytes (line : Line) : List Byte := line.opcode :: line.operand

def image (code : List Line) : List Byte := code.flatMap bytes

def extent : List Line → Nat
  | [] => 0
  | line :: rest => line.instruction.length + extent rest

theorem length_bytes (line : Line) : line.bytes.length = line.instruction.length := by
  rw [bytes, List.length_cons, line.complete, Instruction.length, Nat.add_comm]

theorem image_cons (line : Line) (rest : List Line) :
    image (line :: rest) = line.bytes ++ image rest :=
  List.flatMap_cons

end Line

namespace Bus

def HoldsImage (bus : Bus World) (start : Word) (image : List Byte) : Prop :=
  ∀ offset (within : offset < image.length),
    bus.Plain (start + BitVec.ofNat 16 offset) ∧
      bus.ram.get (start + BitVec.ofNat 16 offset) = image[offset]

variable {bus after : Bus World} {start : Word} {first second image : List Byte}

theorem HoldsImage.left (held : bus.HoldsImage start (first ++ second)) :
    bus.HoldsImage start first := by
  intro offset within
  have cell := held offset (List.length_append ▸ Nat.lt_add_right _ within)
  rwa [List.getElem_append_left within] at cell

theorem HoldsImage.right (held : bus.HoldsImage start (first ++ second)) :
    bus.HoldsImage (start + BitVec.ofNat 16 first.length) second := by
  intro offset within
  have inside : first.length + offset < (first ++ second).length := by
    rw [List.length_append]
    omega
  have cell := held (first.length + offset) inside
  rw [List.getElem_append_right (Nat.le_add_right _ _), BitVec.ofNat_add,
    ← BitVec.add_assoc] at cell
  simpa only [Nat.add_sub_cancel_left] using cell

theorem HoldsImage.carried (held : bus.HoldsImage start image) {transfers : List Access}
    (carries : bus.Carries transfers after)
    (unwritten : ∀ offset < image.length, ∀ value,
      .write (start + BitVec.ofNat 16 offset) value ∉ transfers) :
    after.HoldsImage start image := by
  intro offset within
  obtain ⟨plain, cell⟩ := held offset within
  rw [carries.ram_get (unwritten offset within)]
  exact ⟨(plain_congr carries.regions).mpr plain, cell⟩

end Bus

namespace Machine

structure RunsLine (machine : Machine World) (line : Line) : Prop where
  executes : machine.Executes line.instruction
  held : machine.bus.HoldsImage machine.cpu.registers.pc line.bytes

/-- The next step serves no interrupt and writes none of so many cells. -/
structure Spares (machine : Machine World) (start : Word) (count : Nat) : Prop where
  idle : machine.cpu.Idle
  unwritten : ∀ offset < count, ∀ value,
    .write (start + BitVec.ofNat 16 offset) value ∉ machine.cpu.step.accesses machine.bus

theorem Spares.right {machine : Machine World} {start : Word} {first second : Nat}
    (spares : machine.Spares start (first + second)) :
    machine.Spares (start + BitVec.ofNat 16 first) second := by
  refine ⟨spares.idle, fun offset within value => ?_⟩
  rw [BitVec.add_assoc, ← BitVec.ofNat_add]
  exact spares.unwritten (first + offset) (Nat.add_lt_add_left within first) value

theorem runsLine_of_held {machine : Machine World} {line : Line} (idle : machine.cpu.Idle)
    (held : machine.bus.HoldsImage machine.cpu.registers.pc line.bytes) :
    machine.RunsLine line := by
  obtain ⟨plain, opcode⟩ := held 0 (Nat.zero_lt_succ _)
  rw [BitVec.add_zero] at plain opcode
  refine ⟨⟨idle, ?_⟩, held⟩
  rw [plain.read, opcode]
  exact line.documented

/-- One line runs, and the others lie behind it where control goes on. -/
theorem step_of_held {machine : Machine World} {line : Line} {rest : List Byte}
    (held : machine.bus.HoldsImage machine.cpu.registers.pc (line.bytes ++ rest))
    (spares : machine.Spares machine.cpu.registers.pc (line.bytes ++ rest).length) :
    machine.RunsLine line ∧
      machine.step.2.cpu.registers.pc =
        machine.cpu.registers.pc + BitVec.ofNat 16 line.instruction.length ∧
      machine.step.2.bus.HoldsImage machine.step.2.cpu.registers.pc rest := by
  have runs := runsLine_of_held spares.idle held.left
  have next := pc_of_sequential runs.executes line.sequential
  have behind := (held.carried (step_accesses machine).2 spares.unwritten).right
  rw [line.length_bytes, ← next] at behind
  exact ⟨runs, next, behind⟩

theorem runs_code {machine : Machine World} {code : List Line}
    (held : machine.bus.HoldsImage machine.cpu.registers.pc (Line.image code))
    (spares : ∀ index < code.length,
      (machine.after index).Spares machine.cpu.registers.pc (Line.image code).length) :
    (∀ index (within : index < code.length), (machine.after index).RunsLine code[index]) ∧
      ∀ count ≤ code.length, (machine.after count).cpu.registers.pc =
        machine.cpu.registers.pc + BitVec.ofNat 16 (Line.extent (code.take count)) := by
  induction code generalizing machine with
  | nil =>
      refine ⟨fun index within => absurd within (Nat.not_lt_zero index), fun count atMost => ?_⟩
      obtain rfl := Nat.le_zero.mp atMost
      exact (BitVec.add_zero _).symm
  | cons line rest inductionHypothesis =>
      -- The first line leaves the rest of the code in memory for the machine after it.
      rw [Line.image_cons] at held
      obtain ⟨runs, next, behind⟩ :=
        step_of_held held (Line.image_cons line rest ▸ spares 0 (Nat.zero_lt_succ _))
      have others : ∀ index < rest.length,
          (machine.step.2.after index).Spares machine.step.2.cpu.registers.pc
            (Line.image rest).length := by
        intro index within
        have spared := spares (index + 1) (Nat.succ_lt_succ within)
        rw [Line.image_cons, List.length_append, line.length_bytes, after_succ] at spared
        rw [next]
        exact spared.right
      obtain ⟨later, places⟩ := inductionHypothesis behind others
      constructor
      · intro index within
        cases index with
        | zero => exact runs
        | succ index =>
            rw [after_succ]
            exact later index (Nat.lt_of_succ_lt_succ within)
      · intro count atMost
        cases count with
        | zero => exact (BitVec.add_zero _).symm
        | succ count =>
            rw [after_succ, places count (Nat.le_of_succ_le_succ atMost), next,
              List.take_succ_cons, Line.extent, BitVec.ofNat_add, BitVec.add_assoc]

/-- Where control goes after any documented instruction, and along code of any length.  A branch
changes nothing of the processor but the program counter and the cycle counter.  Code whose lines
all go on behind themselves runs in as many steps as it has lines, each line in its place, and
control then is behind the last one. -/
theorem control_flow :
    (∀ {machine : Machine World} {instruction : Instruction}, machine.Executes instruction →
      ∃ cycles, machine.step.1 = .ok cycles ∧
        instruction.Continues machine.cpu.registers (machine.cpu.step.accesses machine.bus)
          machine.step.2.cpu.registers.pc ∧
        (instruction.mnemonic.isBranch = true → ∃ next, machine.step.2.cpu =
          { machine.cpu with
            registers := { machine.cpu.registers with pc := next }
            cycles := machine.cpu.cycles + cycles })) ∧
      ∀ {machine : Machine World} {code : List Line},
        machine.bus.HoldsImage machine.cpu.registers.pc (Line.image code) →
        (∀ index < code.length,
          (machine.after index).Spares machine.cpu.registers.pc (Line.image code).length) →
        (∀ index (within : index < code.length),
            (machine.after index).RunsLine code[index] ∧
              (machine.after index).cpu.registers.pc =
                machine.cpu.registers.pc + BitVec.ofNat 16 (Line.extent (code.take index))) ∧
          machine.runSteps code.length =
            (.ok (machine.spent code.length), machine.after code.length) ∧
          (machine.after code.length).cpu.registers.pc =
            machine.cpu.registers.pc + BitVec.ofNat 16 (Line.extent code) := by
  constructor
  · intro machine instruction executes
    refine ⟨machine.cyclesOf instruction, ?_, continues_step executes, fun branches => ?_⟩
    · rw [step_of_executes executes]
    · obtain ⟨flag, value, conditional⟩ := Mnemonic.exists_branch branches
      obtain ⟨displacement, -, cpu⟩ := step_of_branch executes conditional
      exact ⟨_, cpu⟩
  · intro machine code held spares
    obtain ⟨runs, places⟩ := runs_code held spares
    have completes : machine.Completes code.length := by
      intro index within
      rw [step_of_executes (runs index within).executes]
      exact ⟨_, rfl⟩
    refine ⟨fun index within => ⟨runs index within, places index (Nat.le_of_lt within)⟩,
      runSteps_of_completes completes, ?_⟩
    have last := places code.length (Nat.le_refl _)
    rwa [List.take_length] at last

/-- A loop that loads, stores and branches back, across the end of memory. -/
def loopingMachine : Machine Unit where
  cpu := { registers := { pc := 0xFFFD }, config := {} }
  bus := { ram := Ram.zero.store 0xFFFD [0xA9, 0x80, 0x85, 0x10, 0xD0, 0xFA], world := () }

def loopBody : List Line :=
  [{ instruction := { mnemonic := .lda, mode := .immediate, cycles := 2, pagePenalty := false }
     opcode := 0xA9
     operand := [0x80]
     documented := by decide +kernel
     complete := rfl
     sequential := rfl },
    { instruction := { mnemonic := .sta, mode := .zeroPage, cycles := 3, pagePenalty := false }
      opcode := 0x85
      operand := [0x10]
      documented := by decide +kernel
      complete := rfl
      sequential := rfl }]

theorem loopingMachine_loops :
    (loopingMachine.after 2).cpu.registers.pc = 0x0001 ∧
      loopingMachine.runSteps 2 = (.ok 5, loopingMachine.after 2) ∧
      (loopingMachine.after 3).cpu.registers.pc = 0xFFFD := by
  obtain ⟨single, straight⟩ := @control_flow Unit
  have held : loopingMachine.bus.HoldsImage 0xFFFD (Line.image loopBody) := by
    intro offset within
    refine ⟨rfl, ?_⟩
    revert offset
    decide +kernel
  have spares : ∀ index < loopBody.length,
      (loopingMachine.after index).Spares 0xFFFD (Line.image loopBody).length
    | 0, _ => ⟨by decide +kernel, by decide +kernel⟩
    | 1, _ => ⟨by decide +kernel, by decide +kernel⟩
  obtain ⟨-, finished, last⟩ := straight held spares
  have branches : (loopingMachine.after 2).Executes
      { mnemonic := .bne, mode := .relative, cycles := 2, pagePenalty := true } :=
    ⟨by decide +kernel, by decide +kernel⟩
  have behind : (loopingMachine.after 2).cpu.registers.pc = 0x0001 := last.trans (by decide)
  have distance : [.read 0x0002 0xFA] <:+
      (loopingMachine.after 2).cpu.step.accesses (loopingMachine.after 2).bus := by
    decide +kernel
  obtain ⟨cycles, -, ⟨displacement, read, next⟩, -⟩ := single branches
  rw [behind] at read next
  injection suffix_unique read distance rfl with same
  injection same with _ same
  subst same
  have spent : loopingMachine.spent 2 = 5 := by decide +kernel
  exact ⟨behind, spent ▸ finished, next.trans (by decide +kernel)⟩

end Machine

end Nmos6502
