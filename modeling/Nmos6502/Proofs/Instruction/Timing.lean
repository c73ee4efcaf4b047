import Nmos6502.Proofs.Machine.StatusBytes

/-!
# The time of reads and of branches

An instruction that reads its operand from memory takes cycles by its mode, whatever it does with
the operand.  Three modes add an index register to a whole address (`Mode.index`), and there it
takes one more cycle if the sum is in another page (`Machine.cyclesOf_of_reads`).

A branch that is passed takes two cycles and one that is taken takes more, so the two can be told
apart even where the target is the next instruction (`Machine.takesBranch_iff`,
`Machine.passesBranch_iff`).
-/

set_option autoImplicit false

namespace Nmos6502

variable {World : Type}

/-! ## Reads -/

def Mnemonic.reads : Mnemonic → Bool
  | lda | ldx | ldy | adc | sbc | cmp | cpx | cpy | and | ora | eor | bit => true
  | _ => false

namespace Mode

def index : Mode → Option Register
  | absoluteX => some .x
  | absoluteY | indirectY => some .y
  | _ => none

def readCycles : Mode → Nat
  | immediate => 2
  | zeroPage => 3
  | zeroPageX | zeroPageY | absolute | absoluteX | absoluteY => 4
  | indirectY => 5
  | indirectX => 6
  | implied | accumulator | indirect | relative => 0

end Mode

theorem read_row : ∀ opcode : Byte, ∀ instruction ∈ decode opcode,
    instruction.mnemonic.reads = true →
      instruction.cycles = instruction.mode.readCycles ∧
        instruction.pagePenalty = instruction.mode.index.isSome := by
  decide +kernel

theorem Instruction.totalCycles_of_reads {instruction : Instruction}
    (reads : instruction.mnemonic.reads = true) (operand : Operand) (status : Status) :
    instruction.totalCycles operand status =
      instruction.cycles + (instruction.pagePenalty && operand.pageCrossed).toNat := by
  obtain ⟨mnemonic, mode, cycles, penalty⟩ := instruction
  cases mnemonic with
  | lda | ldx | ldy | adc | sbc | cmp | cpx | cpy | and | ora | eor | bit => rfl
  | _ => cases reads

/-- The address to which a mode adds its index register, with the program counter at the first
operand byte. -/
def Addressing.base (mode : Mode) (registers : Registers) : Program (Option Word) :=
  match mode with
  | .absoluteX | .absoluteY => do
      let base ← Program.readWord registers.pc
      return some base
  | .indirectY => do
      let pointer ← Program.readByte registers.pc
      let base ← zeroPagePointer pointer
      return some base
  | _ => return none

namespace Machine

variable {machine : Machine World} {instruction : Instruction}

def base (machine : Machine World) (mode : Mode) : Option Word :=
  ((Addressing.base mode (machine.cpu.registers.advance 1)).run machine.fetched).1

def indexCrosses (machine : Machine World) (mode : Mode) : Bool :=
  match mode.index, machine.base mode with
  | some register, some base => Operand.crosses base (machine.cpu.registers.get register)
  | _, _ => false

theorem pageCrossed_located {mode : Mode} (indexing : mode.index.isSome = true) :
    (machine.located mode).1.pageCrossed = machine.indexCrosses mode := by
  cases mode with
  | absoluteX | absoluteY | indirectY => rfl
  | _ => cases indexing

theorem base_of_index_eq_none {mode : Mode} (plain : mode.index = none) :
    machine.base mode = none := by
  cases mode with
  | absoluteX | absoluteY | indirectY => cases plain
  | _ => rfl

theorem indexCrosses_of_index_eq_none {mode : Mode} (plain : mode.index = none) :
    machine.indexCrosses mode = false := by
  rw [indexCrosses, plain]

theorem cyclesOf_of_reads (executes : machine.Executes instruction)
    (reads : instruction.mnemonic.reads = true) :
    machine.cyclesOf instruction =
      instruction.mode.readCycles + (machine.indexCrosses instruction.mode).toNat := by
  obtain ⟨cycles, penalty⟩ := read_row _ instruction executes.2 reads
  rw [cyclesOf, instruction.totalCycles_of_reads reads, cycles, penalty]
  cases indexing : instruction.mode.index with
  | none => rw [indexCrosses_of_index_eq_none indexing, Option.isSome_none, Bool.false_and]
  | some register =>
      have indexed : instruction.mode.index.isSome = true := by rw [indexing, Option.isSome_some]
      rw [pageCrossed_located indexed, Option.isSome_some, Bool.true_and]

/-- The next step runs this mnemonic, in this mode, on the byte that it reads last. -/
structure Operates (mnemonic : Mnemonic) (mode : Mode) (operand : Byte)
    (machine : Machine World) : Prop where
  executes : ∃ instruction, machine.Executes instruction ∧ instruction.mnemonic = mnemonic ∧
    instruction.mode = mode
  operand : ∃ cell, [.read cell operand] <:+ machine.cpu.step.accesses machine.bus

theorem exists_operates (executes : machine.Executes instruction)
    (reads : instruction.mnemonic.reads = true) :
    ∃ operand, machine.Operates instruction.mnemonic instruction.mode operand := by
  obtain ⟨address, data, transfers, last⟩ := exists_dataTransfers executes
  have read : ∃ cell value, address = some cell ∧ data = [.read cell value] := by
    obtain ⟨mnemonic, mode, cycles, penalty⟩ := instruction
    cases mnemonic with
    | lda | ldx | ldy | adc | sbc | cmp | cpx | cpy | and | ora | eor | bit => exact transfers
    | _ => cases reads
  obtain ⟨cell, operand, -, rfl⟩ := read
  exact ⟨operand, ⟨instruction, executes, rfl, rfl⟩, cell, last⟩

theorem Operates.step {mnemonic : Mnemonic} {mode : Mode} {operand : Byte}
    (operates : machine.Operates mnemonic mode operand) (reads : mnemonic.reads = true) :
    machine.step.1 = .ok (mode.readCycles + (machine.indexCrosses mode).toNat) := by
  obtain ⟨⟨instruction, executes, rfl, rfl⟩, -⟩ := operates
  rw [step_of_executes executes, cyclesOf_of_reads executes reads]

/-! ## Branches -/

/-- The next step goes to the target of a branch, whose distance is the byte that it reads
last. -/
structure TakesBranch (machine : Machine World) : Prop where
  target : ∃ displacement,
    [.read (machine.cpu.registers.pc + 1) displacement] <:+
        machine.cpu.step.accesses machine.bus ∧
      machine.step.2.cpu.registers.pc =
        machine.cpu.registers.pc + 2 + displacement.signExtend 16
  cycles : ∃ cycles, 3 ≤ cycles ∧ machine.step.1 = .ok cycles

structure PassesBranch (machine : Machine World) : Prop where
  next : machine.step.2.cpu.registers.pc = machine.cpu.registers.pc + 2
  cycles : machine.step.1 = .ok 2

theorem TakesBranch.not_passes (takes : machine.TakesBranch) : ¬ machine.PassesBranch := by
  intro passes
  obtain ⟨cycles, more, completed⟩ := takes.cycles
  have two := Except.ok.inj (completed.symm.trans passes.cycles)
  omega

theorem acted_of_branch {flag : Flag} {value : Bool}
    (branches : instruction.mnemonic.action = .branch flag value) :
    machine.acted instruction =
      (if machine.cpu.registers.status.get flag == value then
          (machine.behind instruction.mode).jump (machine.located instruction.mode).1
        else machine.behind instruction.mode,
        (machine.located instruction.mode).2) := by
  rw [acted, acts, branches]
  rfl

theorem cyclesOf_of_branch {flag : Flag} {value : Bool} (executes : machine.Executes instruction)
    (branches : instruction.mnemonic.action = .branch flag value) :
    machine.cyclesOf instruction =
      2 + Action.branchCycles (machine.cpu.registers.status.get flag == value)
        (machine.located instruction.mode).1 := by
  obtain ⟨-, -, -, two⟩ := decode_cycles_bounds _ instruction executes.2
  rw [cyclesOf, Instruction.totalCycles, branches, two (by rw [Mnemonic.isBranch, branches])]

theorem located_relative (machine : Machine World) :
    ∃ displacement,
      (Addressing.resolve .relative (machine.cpu.registers.advance 1)).accesses machine.fetched =
          [.read (machine.cpu.registers.pc + 1) displacement] ∧
        (machine.located .relative).1.address =
          some (machine.cpu.registers.pc + 2 + displacement.signExtend 16) := by
  refine ⟨_, rfl, ?_⟩
  rw [← Word.add_one_add_one]
  rfl

theorem step_of_branch {flag : Flag} {value : Bool} (executes : machine.Executes instruction)
    (branches : instruction.mnemonic.action = .branch flag value) :
    ∃ displacement,
      [.read (machine.cpu.registers.pc + 1) displacement] <:+
          machine.cpu.step.accesses machine.bus ∧
        machine.step.2.cpu =
          { machine.cpu with
            registers := { machine.cpu.registers with
              pc := if machine.cpu.registers.status.get flag = value then
                  machine.cpu.registers.pc + 2 + displacement.signExtend 16
                else machine.cpu.registers.pc + 2 }
            cycles := machine.cpu.cycles + machine.cyclesOf instruction } := by
  have relative : instruction.mode = .relative :=
    (mode_eq_relative_iff _ instruction executes.2).mpr (by rw [Mnemonic.isBranch, branches])
  obtain ⟨displacement, reads, target⟩ := machine.located_relative
  refine ⟨displacement, ?_, ?_⟩
  · rw [accesses_of_executes executes, relative, reads, acts, branches]
    exact List.suffix_cons _ _
  · have next : machine.behind .relative =
        { machine.cpu.registers with pc := machine.cpu.registers.pc + 2 } :=
      machine.behind_eq .relative
    rw [step_of_executes executes, acted_of_branch branches, relative, next, Registers.jump,
      target]
    by_cases holds : machine.cpu.registers.status.get flag = value
    · rw [if_pos holds, if_pos (beq_iff_eq.mpr holds)]
      rfl
    · rw [if_neg holds, if_neg (mt beq_iff_eq.mp holds)]

theorem takes_or_passes {flag : Flag} {value : Bool} (executes : machine.Executes instruction)
    (branches : instruction.mnemonic.action = .branch flag value) :
    (machine.cpu.registers.status.get flag = value ∧ machine.TakesBranch) ∨
      (machine.cpu.registers.status.get flag ≠ value ∧ machine.PassesBranch) := by
  obtain ⟨displacement, last, cpu⟩ := step_of_branch executes branches
  have completed : machine.step.1 = .ok (machine.cyclesOf instruction) := by
    rw [step_of_executes executes]
  rw [cyclesOf_of_branch executes branches, Action.branchCycles] at completed
  by_cases holds : machine.cpu.registers.status.get flag = value
  · rw [if_pos (beq_iff_eq.mpr holds)] at completed
    rw [if_pos holds] at cpu
    exact Or.inl ⟨holds, ⟨displacement, last, congrArg (·.registers.pc) cpu⟩, _, by omega, completed⟩
  · rw [if_neg (mt beq_iff_eq.mp holds)] at completed
    rw [if_neg holds] at cpu
    exact Or.inr ⟨holds, congrArg (·.registers.pc) cpu, completed⟩

theorem takesBranch_iff {flag : Flag} {value : Bool} (executes : machine.Executes instruction)
    (branches : instruction.mnemonic.action = .branch flag value) :
    machine.TakesBranch ↔ machine.cpu.registers.status.get flag = value := by
  obtain ⟨holds, takes⟩ | ⟨fails, passes⟩ := takes_or_passes executes branches
  · exact iff_of_true takes holds
  · exact iff_of_false (fun takes => takes.not_passes passes) fails

theorem passesBranch_iff {flag : Flag} {value : Bool} (executes : machine.Executes instruction)
    (branches : instruction.mnemonic.action = .branch flag value) :
    machine.PassesBranch ↔ machine.cpu.registers.status.get flag ≠ value := by
  obtain ⟨holds, takes⟩ | ⟨fails, passes⟩ := takes_or_passes executes branches
  · exact iff_of_false takes.not_passes (not_not_intro holds)
  · exact iff_of_true passes fails

end Machine

end Nmos6502
