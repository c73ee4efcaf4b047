import Nmos6502.Proofs.Addressing.EffectiveAddress
import Nmos6502.Proofs.Instruction.Timing

/-!
# Where control goes

Most instructions go on behind themselves.  Where the others go is a byte of the code, an address
that the code names, or an address in memory, and each of these is among the accesses of the step;
`Instruction.Continues` reads the next program counter off them.  A sum that leaves memory at one
end comes back at the other.
-/

set_option autoImplicit false

namespace Nmos6502

variable {World : Type}

def Mnemonic.sequential : Mnemonic → Bool
  | bpl | bmi | bvc | bvs | bcc | bcs | bne | beq | jmp | jsr | rts | rti | brk => false
  | _ => true

theorem Mnemonic.exists_branch {mnemonic : Mnemonic} (branches : mnemonic.isBranch = true) :
    ∃ flag value, mnemonic.action = .branch flag value := by
  unfold isBranch at branches
  split at branches
  · rename_i flag value conditional
    exact ⟨flag, value, conditional⟩
  · cases branches

/-- The address of the next instruction, given the registers before a step and its accesses. -/
def Instruction.Continues (instruction : Instruction) (before : Registers)
    (transfers : List Access) (next : Word) : Prop :=
  let ends := fun accesses : List Access => accesses <:+ transfers
  let pulled := fun count => Registers.stackCell (before.sp + count)
  let branches := fun (flag : Flag) (value : Bool) =>
    ∃ displacement, ends [.read (before.pc + 1) displacement] ∧
      next = if before.status.get flag = value then before.pc + 2 + displacement.signExtend 16
        else before.pc + 2
  match instruction.mnemonic with
  | .bpl => branches .negative false
  | .bmi => branches .negative true
  | .bvc => branches .overflow false
  | .bvs => branches .overflow true
  | .bcc => branches .carry false
  | .bcs => branches .carry true
  | .bne => branches .zero false
  | .beq => branches .zero true
  | .jmp | .jsr =>
      ∃ opcode located data base, transfers = .read before.pc opcode :: (located ++ data) ∧
        Addressing.Resolves (before.advance 1) instruction.mode located base (some next.toNat)
  | .rts =>
      ∃ low high, ends [.read (pulled 1) low, .read (pulled 2) high] ∧
        next = Word.ofBytes high low + 1
  | .rti =>
      ∃ saved low high,
        ends [.read (pulled 1) saved, .read (pulled 2) low, .read (pulled 3) high] ∧
          next = Word.ofBytes high low
  | .brk =>
      ∃ low high, ends [.read 0xFFFE low, .read 0xFFFF high] ∧ next = Word.ofBytes high low
  | _ => next = before.pc + BitVec.ofNat 16 instruction.length

theorem mode_of_jump : ∀ opcode : Byte, ∀ instruction ∈ decode opcode,
    instruction.mnemonic = .jmp ∨ instruction.mnemonic = .jsr →
      instruction.mode ≠ .implied ∧ instruction.mode ≠ .accumulator := by
  decide +kernel

/-! ## Actions -/

theorem Operand.always_replace (operand : Operand) (registers : Registers) (status : Status)
    (value : Byte) :
    (operand.replace { registers with status } value).Always fun after =>
      after.pc = registers.pc := by
  unfold replace
  split <;> rfl

theorem Mnemonic.always_execute {mnemonic : Mnemonic} (sequential : mnemonic.sequential = true)
    (decimalMode : Bool) (operand : Operand) (registers : Registers) :
    (mnemonic.action.execute decimalMode operand registers).Always fun after =>
      after.pc = registers.pc := by
  cases mnemonic with
  | lda | ldx | ldy | adc | sbc | cmp | cpx | cpy | and | ora | eor | bit =>
      refine Program.Always.of_rest (fun value => ?_) _
      rfl
  | sta | stx | sty =>
      simp only [action, Action.execute]
      split <;> rfl
  | inc | dec | asl | lsr | rol | ror =>
      refine Program.Always.of_rest (fun value => ?_) _
      exact operand.always_replace registers _ _
  | pla | plp => exact fun _ => rfl
  | bpl | bmi | bvc | bvs | bcc | bcs | bne | beq | jmp | jsr | rts | rti | brk => cases sequential
  | _ => rfl

/-! ## Steps -/

namespace Machine

variable {machine : Machine World} {instruction : Instruction}

theorem pc_behind (machine : Machine World) (instruction : Instruction) :
    (machine.behind instruction.mode).pc =
      machine.cpu.registers.pc + BitVec.ofNat 16 instruction.length := by
  rw [behind_eq, Instruction.length]

theorem pc_of_sequential (executes : machine.Executes instruction)
    (sequential : instruction.mnemonic.sequential = true) :
    machine.step.2.cpu.registers.pc =
      machine.cpu.registers.pc + BitVec.ofNat 16 instruction.length := by
  have kept := (Mnemonic.always_execute sequential machine.cpu.config.decimalMode
    (machine.located instruction.mode).1 (machine.behind instruction.mode)).run
      (machine.located instruction.mode).2
  rw [step_of_executes executes, ← pc_behind]
  exact kept

theorem exists_resolves_located (executes : machine.Executes instruction) {target : Word}
    (address : (machine.located instruction.mode).1.address = some target) :
    ∃ opcode located data base,
      machine.cpu.step.accesses machine.bus =
          .read machine.cpu.registers.pc opcode :: (located ++ data) ∧
        Addressing.Resolves (machine.cpu.registers.advance 1) instruction.mode located base
          (some target.toNat) := by
  obtain ⟨base, resolves, -⟩ := Addressing.exists_resolves instruction.mode
    (machine.cpu.registers.advance 1) machine.fetched
  have named : (machine.located instruction.mode).1.address.map BitVec.toNat =
      some target.toNat := congrArg (Option.map BitVec.toNat) address
  rw [located] at named
  rw [named] at resolves
  exact ⟨_, _, _, base, accesses_of_executes executes, resolves⟩

/-- The law holds of every documented instruction. -/
theorem continues_step (executes : machine.Executes instruction) :
    instruction.Continues machine.cpu.registers (machine.cpu.step.accesses machine.bus)
      machine.step.2.cpu.registers.pc := by
  have last := suffix_accesses executes
  obtain ⟨mnemonic, mode, cycles, penalty⟩ := instruction
  cases mnemonic with
  | bpl | bmi | bvc | bvs | bcc | bcs | bne | beq =>
      obtain ⟨displacement, last, cpu⟩ := step_of_branch executes rfl
      exact ⟨displacement, last, congrArg (·.registers.pc) cpu⟩
  | jmp | jsr =>
      obtain ⟨notImplied, notAccumulator⟩ := mode_of_jump _ _ executes.2 (by simp)
      obtain ⟨target, address⟩ := (fits_located executes).cell_of_mode notImplied notAccumulator
      have next : machine.step.2.cpu.registers.pc = target := by
        rw [step_of_executes executes]
        exact congrArg (Option.getD · _) address
      rw [next]
      exact exists_resolves_located executes address
  | rts =>
      have second : machine.cpu.registers.sp + 1 + 1 = machine.cpu.registers.sp + 2 :=
        Registers.add_one_add_one _
      rw [step_of_executes executes]
      simp only [Instruction.Continues, ← second]
      exact ⟨_, _, last, rfl⟩
  | rti =>
      have second : machine.cpu.registers.sp + 1 + 1 = machine.cpu.registers.sp + 2 :=
        Registers.add_one_add_one _
      have third : machine.cpu.registers.sp + 1 + 1 + 1 = machine.cpu.registers.sp + 3 :=
        Registers.add_one_thrice _
      rw [step_of_executes executes]
      simp only [Instruction.Continues, ← second, ← third]
      exact ⟨_, _, _, last, rfl⟩
  | brk =>
      obtain ⟨-, located, acts⟩ := acted_of_brk executes rfl
      rw [acts, located, Registers.accesses_enter] at last
      rw [step_of_executes executes, acted, acts, located, Registers.run_enter]
      exact ⟨_, _, (List.suffix_append _ _).trans last, rfl⟩
  | _ => exact pc_of_sequential executes rfl

end Machine

end Nmos6502
