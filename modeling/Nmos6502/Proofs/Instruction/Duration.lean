import Nmos6502.Proofs.Instruction.ControlFlow

/-!
# How long an instruction takes

The time of an instruction comes from three places: the matrix, the penalty for leaving a page, and
the extra cycles of a branch.  `Mnemonic.time` is what they add up to, told by what the instruction
does, its mode, whether it branches, and whether its address lies in another page than the base from
which the mode counts it.

Only reads are delayed by such an address.  A write waits for the carry whether there is one or not.
-/

set_option autoImplicit false

namespace Nmos6502

variable {World : Type}

namespace Mode

def storeCycles : Mode → Nat
  | zeroPage => 3
  | zeroPageX | zeroPageY | absolute => 4
  | absoluteX | absoluteY => 5
  | indirectX | indirectY => 6
  | implied | accumulator | immediate | indirect | relative => 0

def updateCycles : Mode → Nat
  | accumulator => 2
  | zeroPage => 5
  | zeroPageX | absolute => 6
  | absoluteX => 7
  | implied | immediate | zeroPageY | absoluteY | indirect | indirectX | indirectY | relative => 0

end Mode

namespace Mnemonic

def branches (mnemonic : Mnemonic) (status : Status) : Bool :=
  match mnemonic with
  | bpl => !status.negative
  | bmi => status.negative
  | bvc => !status.overflow
  | bvs => status.overflow
  | bcc => !status.carry
  | bcs => status.carry
  | bne => !status.zero
  | beq => status.zero
  | _ => false

/-- The cycles of an instruction, given whether it branches and whether its address leaves the page
of the base. -/
def time (mnemonic : Mnemonic) (mode : Mode) (taken leaves : Bool) : Nat :=
  match mnemonic with
  | lda | ldx | ldy | adc | sbc | cmp | cpx | cpy | and | ora | eor | bit =>
      mode.readCycles + (mode.index.isSome && leaves).toNat
  | sta | stx | sty => mode.storeCycles
  | asl | lsr | rol | ror | inc | dec => mode.updateCycles
  | bpl | bmi | bvc | bvs | bcc | bcs | bne | beq => if taken then 3 + leaves.toNat else 2
  | jmp => if mode = .indirect then 5 else 3
  | jsr | rts | rti => 6
  | brk => 7
  | pha | php => 3
  | pla | plp => 4
  | _ => 2

theorem branches_eq {mnemonic : Mnemonic} {flag : Flag} {value : Bool}
    (conditional : mnemonic.action = .branch flag value) (status : Status) :
    mnemonic.branches status = (status.get flag == value) := by
  cases mnemonic with
  | bpl | bvc | bcc | bne =>
      cases conditional
      exact (beq_false _).symm
  | bmi | bvs | bcs | beq =>
      cases conditional
      exact (beq_true _).symm
  | _ => cases conditional

end Mnemonic

namespace Instruction

theorem time_row : ∀ opcode : Byte, ∀ instruction ∈ decode opcode, ∀ taken leaves,
    instruction.mnemonic.time instruction.mode taken leaves =
      instruction.cycles +
        if instruction.mnemonic.isBranch then Action.branchCycles taken ⟨none, leaves⟩
        else (instruction.pagePenalty && leaves).toNat := by
  decide +kernel

/-- The three places from which the time comes add up to the time of the table. -/
theorem totalCycles_eq_time {opcode : Byte} {instruction : Instruction}
    (documented : decode opcode = some instruction) (operand : Operand) (status : Status) :
    instruction.totalCycles operand status =
      instruction.mnemonic.time instruction.mode (instruction.mnemonic.branches status)
        operand.pageCrossed := by
  rw [time_row opcode instruction documented, totalCycles]
  split
  case h_1 flag value conditional =>
    have branch : instruction.mnemonic.isBranch = true := by rw [Mnemonic.isBranch, conditional]
    rw [Mnemonic.branches_eq conditional, if_pos branch]
    rfl
  case h_2 unconditional =>
    have plain : ¬ instruction.mnemonic.isBranch = true := by
      intro branch
      obtain ⟨flag, value, conditional⟩ := Mnemonic.exists_branch branch
      exact unconditional flag value conditional
    rw [if_neg plain]

end Instruction

theorem Addressing.Resolves.base_of_relative {registers : Registers} {located : List Access}
    {base address : Option Nat} (resolves : Resolves registers .relative located base address) :
    base = some (registers.pc + 1).toNat := by
  cases resolves with
  | relative first => rw [Word.toNat_succ]

namespace Machine

variable {machine : Machine World} {instruction : Instruction}

theorem cyclesOf_eq_time (executes : machine.Executes instruction) :
    machine.cyclesOf instruction =
      instruction.mnemonic.time instruction.mode
        (instruction.mnemonic.branches machine.cpu.registers.status)
        (machine.located instruction.mode).1.pageCrossed :=
  Instruction.totalCycles_eq_time executes.2 _ _

theorem pc_of_isBranch (executes : machine.Executes instruction)
    (branch : instruction.mnemonic.isBranch = true) {located : List Access}
    {base : Option Nat}
    (resolves : Addressing.Resolves (machine.cpu.registers.advance 1) instruction.mode located base
      ((machine.located instruction.mode).1.address.map BitVec.toNat)) :
    some machine.step.2.cpu.registers.pc.toNat =
      if instruction.mnemonic.branches machine.cpu.registers.status then
        (machine.located instruction.mode).1.address.map BitVec.toNat
      else base := by
  have relative := (mode_eq_relative_iff _ instruction executes.2).mpr branch
  obtain ⟨flag, value, conditional⟩ := Mnemonic.exists_branch branch
  rw [step_of_executes executes, acted_of_branch conditional, Mnemonic.branches_eq conditional]
  rw [relative] at resolves ⊢
  split
  · rfl
  · rw [resolves.base_of_relative]
    rfl

/-- The time of a step that runs a documented instruction is that of the table.  The accesses of the
step tell the base and the address, and where a branch goes tells whether it is taken. -/
theorem step_time (executes : machine.Executes instruction) :
    let taken := instruction.mnemonic.branches machine.cpu.registers.status
    ∃ opcode located data base address,
      machine.cpu.step.accesses machine.bus =
          .read machine.cpu.registers.pc opcode :: (located ++ data) ∧
        Addressing.Resolves (machine.cpu.registers.advance 1) instruction.mode located base
          address ∧
        machine.step.1 = .ok (instruction.mnemonic.time instruction.mode taken
          (decide (Addressing.LeavesPage base address))) ∧
        (instruction.mnemonic.isBranch = true →
          some machine.step.2.cpu.registers.pc.toNat = if taken then address else base) := by
  intro taken
  obtain ⟨base, resolves, crossed⟩ := Addressing.exists_resolves instruction.mode
    (machine.cpu.registers.advance 1) machine.fetched
  refine ⟨_, _, _, base, _, accesses_of_executes executes, resolves, ?_,
    fun branch => pc_of_isBranch executes branch resolves⟩
  have leaves : (machine.located instruction.mode).1.pageCrossed =
      decide (Addressing.LeavesPage base
        ((machine.located instruction.mode).1.address.map BitVec.toNat)) :=
    Bool.eq_iff_iff.mpr (crossed.trans decide_eq_true_iff.symm)
  rw [step_of_executes executes, cyclesOf_eq_time executes, leaves]
  rfl

/-- The index takes the address past the end of memory, which is another page. -/
def wrappingReadMachine : Machine Unit where
  cpu := { registers := { x := 0x01, pc := 0x0200 }, config := {} }
  bus := { ram := Ram.zero.store 0x0200 [0xBD, 0xFF, 0xFF], world := () }

theorem wrappingReadMachine_waits : wrappingReadMachine.step.1 = .ok 5 := by
  have executes : wrappingReadMachine.Executes
      { mnemonic := .lda, mode := .absoluteX, cycles := 4, pagePenalty := true } :=
    ⟨by decide +kernel, by decide +kernel⟩
  obtain ⟨opcode, located, data, base, address, accesses, resolves, cycles, -⟩ :=
    step_time executes
  have listed : wrappingReadMachine.cpu.step.accesses wrappingReadMachine.bus =
      [.read 0x0200 0xBD, .read 0x0201 0xFF, .read 0x0202 0xFF, .read 0x0000 0x00] := by
    decide +kernel
  rw [listed] at accesses
  cases resolves with
  | absoluteX first second =>
      injection accesses with _ accesses
      injection accesses with first accesses
      injection accesses with second accesses
      injection first with _ first
      injection second with _ second
      subst first second
      exact cycles

end Machine

end Nmos6502
