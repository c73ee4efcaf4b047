import Nmos6502.Proofs.Bus.Veil
import Nmos6502.Proofs.Instruction.Duration

/-!
# Short and long encodings

A cell of page zero can be named by one byte or by a whole address, and what a pointer in page zero
points at can be named by the place of the pointer or by the word that it holds.  The two encodings
resolve to the same operand, page crossing included (`Respelled.located`).

From there on only the mnemonic counts, and what it does carries the program counter along without
looking at it (`Mnemonic.execute_withPc`).  The machines differ in the cells of the instruction.  No
access to the operand goes there, so these cells are a veil under which both steps are one.
-/

set_option autoImplicit false

namespace Nmos6502

variable {World : Type}

/-! ## Operands and actions -/

theorem Operand.cell_eq_indexed {offset index : Byte}
    (within : offset.toNat + index.toNat ≤ 0xFF) :
    cell (Word.zeroPage (offset + index)) = indexed (Word.zeroPage offset) index := by
  have sum : Word.zeroPage (offset + index) = Word.zeroPage offset + index.setWidth 16 := by
    apply BitVec.eq_of_toNat_eq
    rw [Word.toNat_zeroPage_add, Word.toNat_add_index, Word.toNat_zeroPage]
    omega
  have stays : crosses (Word.zeroPage offset) index = false := by
    rw [← Bool.not_eq_true, crosses_iff, Word.toNat_zeroPage]
    omega
  rw [cell, indexed, sum, stays]

def Operand.ofWord (registers : Registers) (mode : Mode) (word : Word) : Operand :=
  match mode with
  | .absoluteX => .indexed word registers.x
  | .absoluteY => .indexed word registers.y
  | _ => .cell word

theorem Mnemonic.execute_withPc {mnemonic : Mnemonic} (sequential : mnemonic.sequential = true)
    (decimalMode : Bool) (operand : Operand) (registers : Registers) (pc : Word) :
    mnemonic.action.execute decimalMode operand { registers with pc } =
      (mnemonic.action.execute decimalMode operand registers).bind fun after =>
        .done { after with pc } := by
  cases mnemonic with
  | bpl | bmi | bvc | bvs | bcc | bcs | bne | beq | jmp | jsr | rts | rti | brk => cases sequential
  | lda | ldx | ldy | sta | stx | sty | adc | sbc | cmp | cpx | cpy | and | ora | eor | bit
  | asl | lsr | rol | ror | inc | dec =>
      obtain ⟨_ | address, crossed⟩ := operand
      · rfl
      · rfl
  | _ => rfl

theorem mnemonic_of_short : ∀ opcode : Byte, ∀ instruction ∈ decode opcode,
    instruction.mode ∈ [.zeroPage, .zeroPageX, .zeroPageY, .indirectY] →
      instruction.mnemonic.sequential = true ∧
        (instruction.mnemonic.usesCell = true ∨
          instruction.mnemonic ∈ [.asl, .lsr, .rol, .ror]) := by
  decide +kernel

theorem time_of_short : ∀ opcode : Byte, ∀ instruction ∈ decode opcode, ∀ taken leaves,
    (instruction.mode = .zeroPage →
        instruction.mnemonic.time .absolute taken leaves =
          instruction.mnemonic.time .zeroPage taken leaves + 1) ∧
      (instruction.mode = .indirectY →
        instruction.mnemonic.time .indirectY taken leaves =
          instruction.mnemonic.time .absoluteY taken leaves + 1) := by
  decide +kernel

theorem Instruction.DataTransfers.address_eq {instruction : Instruction} {registers : Registers}
    {address : Option Word} {data : List Access}
    (transfers : instruction.DataTransfers registers address data)
    (uses : instruction.mnemonic.usesCell = true ∨
      instruction.mnemonic ∈ [.asl, .lsr, .rol, .ror]) :
    ∀ transfer ∈ data, address = some transfer.address := by
  obtain ⟨mnemonic, mode, cycles, penalty⟩ := instruction
  cases mnemonic with
  | lda | ldx | ldy | adc | sbc | cmp | cpx | cpy | and | ora | eor | bit =>
      obtain ⟨cell, value, rfl, rfl⟩ := transfers
      simp [Access.address]
  | sta | stx | sty =>
      obtain ⟨cell, rfl, rfl⟩ := transfers
      simp [Access.address]
  | inc | dec =>
      obtain ⟨cell, value, result, rfl, rfl⟩ := transfers
      simp [Access.address]
  | asl | lsr | rol | ror =>
      simp only [DataTransfers] at transfers
      split at transfers
      · simp [transfers]
      · obtain ⟨cell, value, result, rfl, rfl⟩ := transfers
        simp [Access.address]
  | _ => simp [Mnemonic.usesCell] at uses

namespace Machine

/-! ## Encodings -/

def codeCells (machine : Machine World) : List Word :=
  [machine.cpu.registers.pc, machine.cpu.registers.pc + 1, machine.cpu.registers.pc + 2]

/-- One mode names by a byte what the other names by a word. -/
inductive Respells (machine : Machine World) :
    (short long : Mode) → (operand : Byte) → (word : Word) → Prop where
  | direct (cell : Byte) : Respells machine .zeroPage .absolute cell (Word.zeroPage cell)
  | indexedX (cell : Byte) (within : cell.toNat + machine.cpu.registers.x.toNat ≤ 0xFF) :
      Respells machine .zeroPageX .absoluteX cell (Word.zeroPage cell)
  | indexedY (cell : Byte) (within : cell.toNat + machine.cpu.registers.y.toNat ≤ 0xFF) :
      Respells machine .zeroPageY .absoluteY cell (Word.zeroPage cell)
  | indirect (pointer : Byte)
      (plain : ∀ cell ∈ [Word.zeroPage pointer, Word.zeroPage (pointer + 1)],
        machine.bus.Plain cell) :
      Respells machine .indirectY .absoluteY pointer
        (Word.ofBytes (machine.bus.ram.get (Word.zeroPage (pointer + 1)))
          (machine.bus.ram.get (Word.zeroPage pointer)))

/-- Nothing but the code tells the machines apart.  One has a short and the other a long encoding of
the same instruction at the program counter, and the operand lies elsewhere. -/
structure Respelled (machine other : Machine World) (short long : Instruction) : Prop where
  executes : machine.Executes short
  also : other.Executes long
  mnemonic : long.mnemonic = short.mnemonic
  spelling : machine.Respells short.mode long.mode
    (machine.bus.ram.get (machine.cpu.registers.pc + 1))
    (Word.ofBytes (other.bus.ram.get (machine.cpu.registers.pc + 2))
      (other.bus.ram.get (machine.cpu.registers.pc + 1)))
  cpu : other.cpu = machine.cpu
  bus : other.bus = machine.bus.withRam other.bus.ram
  visible : ∀ address ∉ machine.codeCells,
    other.bus.ram.get address = machine.bus.ram.get address
  plain : ∀ cell ∈ machine.codeCells, machine.bus.Plain cell
  elsewhere : ∀ address, (machine.located short.mode).1.address = some address →
    address ∉ machine.codeCells

/-- Each step finds the operand at the same address in its own way, and what the two do there is the
same. -/
def SharesData (machine other : Machine World) (short long : Instruction) : Prop :=
  ∃ opcode located otherOpcode otherLocated address data,
    machine.cpu.step.accesses machine.bus =
        .read machine.cpu.registers.pc opcode :: (located ++ data) ∧
      other.cpu.step.accesses other.bus =
        .read other.cpu.registers.pc otherOpcode :: (otherLocated ++ data) ∧
      short.mode.Locates machine.cpu.registers located (some address) ∧
      long.mode.Locates other.cpu.registers otherLocated (some address) ∧
      short.DataTransfers machine.cpu.registers (some address) data

variable {machine other : Machine World} {short long : Instruction}

theorem located_short {shortMode longMode : Mode} {word : Word}
    (plain : ∀ cell ∈ machine.codeCells, machine.bus.Plain cell)
    (respells : machine.Respells shortMode longMode
      (machine.bus.ram.get (machine.cpu.registers.pc + 1)) word) :
    machine.located shortMode =
      (Operand.ofWord machine.cpu.registers longMode word, machine.bus) := by
  have fetched := fetched_of_plain (plain _ (by simp [codeCells]))
  have first : machine.bus.Plain (machine.cpu.registers.pc + 1) := plain _ (by simp [codeCells])
  have read := first.read
  rw [located, fetched]
  generalize machine.bus.ram.get (machine.cpu.registers.pc + 1) = byte at respells read
  cases respells with
  | direct cell =>
      simp only [Addressing.resolve, Registers.advance, Program.bind_eq, Program.run_bind,
        Program.run_readByte, read]
      rfl
  | indexedX cell within | indexedY cell within =>
      simp only [Addressing.resolve, Registers.advance, Program.bind_eq, Program.run_bind,
        Program.run_readByte, read, Operand.cell_eq_indexed within]
      rfl
  | indirect pointer pointed =>
      have low := (pointed (Word.zeroPage byte) (by simp)).read
      have high := (pointed (Word.zeroPage (byte + 1)) (by simp)).read
      simp only [Addressing.resolve, Registers.advance, Program.bind_eq, Program.run_bind,
        Program.run_readByte, read, Addressing.zeroPagePointer, Program.run_readSplit, low, high]
      rfl

theorem located_long {longMode : Mode} (two : longMode ∈ [.absolute, .absoluteX, .absoluteY])
    (plain : ∀ cell ∈ machine.codeCells, machine.bus.Plain cell) :
    machine.located longMode =
      (Operand.ofWord machine.cpu.registers longMode
        (Word.ofBytes (machine.bus.ram.get (machine.cpu.registers.pc + 2))
          (machine.bus.ram.get (machine.cpu.registers.pc + 1))), machine.bus) := by
  have fetched := fetched_of_plain (plain _ (by simp [codeCells]))
  have first : machine.bus.Plain (machine.cpu.registers.pc + 1) := plain _ (by simp [codeCells])
  have second : machine.bus.Plain (machine.cpu.registers.pc + 1 + 1) := by
    rw [Word.add_one_add_one]
    exact plain _ (by simp [codeCells])
  have word := Program.run_readWord_of_plain first second
  rw [Word.add_one_add_one] at word
  cases longMode with
  | absolute | absoluteX | absoluteY =>
      rw [located, fetched]
      simp only [Addressing.resolve, Registers.advance, Program.bind_eq, Program.run_bind, word]
      rfl
  | _ => simp at two

theorem Respells.modes {shortMode longMode : Mode} {operand : Byte} {word : Word}
    (respells : machine.Respells shortMode longMode operand word) :
    shortMode ∈ [.zeroPage, .zeroPageX, .zeroPageY, .indirectY] ∧
      longMode ∈ [.absolute, .absoluteX, .absoluteY] ∧
      (shortMode = .zeroPage → longMode = .absolute) ∧
      (shortMode = .indirectY → longMode = .absoluteY) := by
  cases respells <;> decide

theorem Respells.behind {shortMode longMode : Mode} {operand : Byte} {word : Word}
    (respells : machine.Respells shortMode longMode operand word) :
    machine.behind longMode =
      { machine.behind shortMode with pc := (machine.behind shortMode).pc + 1 } := by
  have further : machine.cpu.registers.pc + BitVec.ofNat 16 3 =
      machine.cpu.registers.pc + BitVec.ofNat 16 2 + 1 := by
    rw [BitVec.add_assoc]
    rfl
  rw [behind_eq, behind_eq]
  cases respells with
  | direct | indexedX | indexedY | indirect =>
      exact congrArg (fun pc => { machine.cpu.registers with pc }) further

namespace Respelled

variable (respelled : machine.Respelled other short long)
include respelled

theorem located :
    (machine.located short.mode).2 = machine.bus ∧
      other.located long.mode = ((machine.located short.mode).1, other.bus) := by
  have plain : ∀ cell ∈ other.codeCells, other.bus.Plain cell := by
    rw [codeCells, respelled.cpu, respelled.bus]
    exact respelled.plain
  have spelled := located_long respelled.spelling.modes.2.1 plain
  rw [respelled.cpu] at spelled
  rw [located_short respelled.plain respelled.spelling, spelled]
  exact ⟨rfl, rfl⟩

theorem sequential : short.mnemonic.sequential = true :=
  (mnemonic_of_short _ short respelled.executes.2 respelled.spelling.modes.1).1

theorem uses : short.mnemonic.usesCell = true ∨ short.mnemonic ∈ [.asl, .lsr, .rol, .ror] :=
  (mnemonic_of_short _ short respelled.executes.2 respelled.spelling.modes.1).2

theorem acts :
    other.acts long = (machine.acts short).bind fun after =>
      .done { after with pc := (machine.behind short.mode).pc + 1 } := by
  have behind : other.behind long.mode = machine.behind long.mode := by
    rw [Machine.behind, respelled.cpu, Machine.behind]
  rw [Machine.acts, respelled.mnemonic, respelled.located.2, respelled.cpu, behind,
    respelled.spelling.behind,
    Mnemonic.execute_withPc respelled.sequential, Machine.acts]

theorem pc_acted : (machine.acted short).1.pc = (machine.behind short.mode).pc :=
  (Mnemonic.always_execute respelled.sequential _ _ _).run _

theorem spares :
    machine.bus.Spares (· ∈ machine.codeCells) ((machine.acts short).accesses machine.bus) := by
  rintro address ⟨-, transfer, member, rfl⟩
  have transfers := Instruction.dataTransfers_execute (fits_located respelled.executes)
    machine.cpu.config.decimalMode machine.cpu.registers machine.bus
  exact respelled.elsewhere _
    (transfers.address_eq respelled.uses transfer member)

theorem acted :
    ∃ after,
      other.acted long =
          ({ (machine.acted short).1 with pc := (machine.acted short).1.pc + 1 },
            (machine.acted short).2.withRam after) ∧
        (other.acts long).accesses other.bus = (machine.acts short).accesses machine.bus ∧
        Ram.Veils (· ∈ machine.codeCells) machine.bus.ram other.bus.ram
          (machine.acted short).2.ram after := by
  have veils : Ram.Veils (· ∈ machine.codeCells) machine.bus.ram other.bus.ram machine.bus.ram
      other.bus.ram := ⟨respelled.visible, fun _ _ => rfl, fun _ _ => rfl⟩
  obtain ⟨after, runs, transfers, veiled⟩ := Program.run_withRam veils respelled.spares
  rw [← respelled.bus] at runs transfers
  have here : machine.acted short = (machine.acts short).run machine.bus := by
    rw [Machine.acted, respelled.located.1]
  refine ⟨after, ?_, ?_, here ▸ veiled⟩
  · rw [Machine.acted, respelled.located.2, respelled.acts, Program.run_bind, runs,
      respelled.pc_acted, here]
    rfl
  · rw [respelled.acts, Program.accesses_bind, transfers]
    exact List.append_nil _

theorem cyclesOf :
    (short.mode = .zeroPage → other.cyclesOf long = machine.cyclesOf short + 1) ∧
      (short.mode = .indirectY → machine.cyclesOf short = other.cyclesOf long + 1) := by
  obtain ⟨-, -, direct, indirect⟩ := respelled.spelling.modes
  have row := time_of_short _ short respelled.executes.2
    (short.mnemonic.branches machine.cpu.registers.status)
    (machine.located short.mode).1.pageCrossed
  rw [cyclesOf_eq_time respelled.executes, cyclesOf_eq_time respelled.also, respelled.located.2,
    respelled.mnemonic, respelled.cpu]
  constructor
  · intro zeroPage
    rw [direct zeroPage, row.1 zeroPage, zeroPage]
  · intro indirectY
    rw [indirect indirectY, ← row.2 indirectY, indirectY]

theorem sharesData : machine.SharesData other short long := by
  obtain ⟨inShort, -⟩ := respelled.spelling.modes
  obtain ⟨address, found⟩ := (fits_located respelled.executes).cell_of_mode
    (fun implied => by simp [implied] at inShort)
    fun accumulator => by simp [accumulator] at inShort
  have also : (other.located long.mode).1.address = some address := by
    rw [respelled.located.2, found]
  obtain ⟨-, -, transfers, -⟩ := respelled.acted
  have listed := accesses_of_executes respelled.executes
  have listedAlso := accesses_of_executes respelled.also
  rw [respelled.located.1] at listed
  rw [respelled.located.2, transfers] at listedAlso
  have data := Instruction.dataTransfers_execute (fits_located respelled.executes)
    machine.cpu.config.decimalMode machine.cpu.registers machine.bus
  exact ⟨_, _, _, _, address, _, listed, listedAlso, found ▸ Addressing.locates _ _ _,
    also ▸ Addressing.locates _ _ _, found ▸ data⟩

end Respelled

/-- Two encodings of an instruction do the same.  The long one is a byte longer, and it takes a
cycle more to name a cell of page zero and a cycle less to name the word that a pointer holds. -/
theorem encodings_agree (respelled : machine.Respelled other short long) :
    other.step.2.cpu.registers =
        { machine.step.2.cpu.registers with pc := machine.step.2.cpu.registers.pc + 1 } ∧
      other.step.2.bus = machine.step.2.bus.withRam other.step.2.bus.ram ∧
      Ram.Veils (· ∈ machine.codeCells) machine.bus.ram other.bus.ram machine.step.2.bus.ram
        other.step.2.bus.ram ∧
      machine.SharesData other short long ∧
      ∃ cycles otherCycles,
        machine.step.1 = .ok cycles ∧ other.step.1 = .ok otherCycles ∧
          (short.mode = .zeroPage → otherCycles = cycles + 1) ∧
          (short.mode = .indirectY → cycles = otherCycles + 1) := by
  obtain ⟨after, acted, -, veiled⟩ := respelled.acted
  obtain ⟨direct, indirect⟩ := respelled.cyclesOf
  have transfers := respelled.sharesData
  rw [step_of_executes respelled.executes, step_of_executes respelled.also, acted]
  exact ⟨rfl, rfl, veiled, transfers, _, _, rfl, rfl, direct, indirect⟩

/-- The index takes the word behind a pointer to the next page, and the code goes past the end of
memory. -/
def pointingMachine : Machine Unit where
  cpu := { registers := { y := 0x01, pc := 0xFFFE }, config := {} }
  bus :=
    { ram := ((Ram.zero.store 0x0080 [0xFF, 0x02]).set 0x0300 0x77).store 0xFFFE [0xB1, 0x80]
      world := () }

def spelledOutMachine : Machine Unit where
  cpu := pointingMachine.cpu
  bus := pointingMachine.bus.withRam
    (((pointingMachine.bus.ram.set 0xFFFE 0xB9).set 0xFFFF 0xFF).set 0x0000 0x02)

theorem spelledOutMachine_loads :
    pointingMachine.step.1 = .ok 6 ∧ spelledOutMachine.step.1 = .ok 5 ∧
      spelledOutMachine.step.2.cpu.registers.a = 0x77 ∧
      spelledOutMachine.step.2.cpu.registers.pc = 0x0001 := by
  have also : spelledOutMachine.Executes
      { mnemonic := .lda, mode := .absoluteY, cycles := 4, pagePenalty := true } :=
    ⟨by decide +kernel, by decide +kernel⟩
  have respelled : pointingMachine.Respelled spelledOutMachine
      { mnemonic := .lda, mode := .indirectY, cycles := 5, pagePenalty := true }
      { mnemonic := .lda, mode := .absoluteY, cycles := 4, pagePenalty := true } := by
    constructor
    case executes => exact ⟨by decide +kernel, by decide +kernel⟩
    case also => exact also
    case mnemonic => rfl
    case spelling =>
      have operand : pointingMachine.bus.ram.get 0xFFFF = 0x80 := by decide +kernel
      have word : Word.ofBytes (spelledOutMachine.bus.ram.get 0x0000)
            (spelledOutMachine.bus.ram.get 0xFFFF) =
          Word.ofBytes (pointingMachine.bus.ram.get (Word.zeroPage (0x80 + 1)))
            (pointingMachine.bus.ram.get (Word.zeroPage 0x80)) := by decide +kernel
      have spelled : pointingMachine.Respells .indirectY .absoluteY _ _ :=
        .indirect 0x80 fun _ _ => rfl
      rwa [← word, ← operand] at spelled
    case cpu => rfl
    case bus => rfl
    case visible =>
      intro address outside
      simp only [codeCells, List.mem_cons, not_or] at outside
      obtain ⟨opcode, low, high, -⟩ := outside
      exact (Ram.get_set_of_ne _ _ high).trans
        ((Ram.get_set_of_ne _ _ low).trans (Ram.get_set_of_ne _ _ opcode))
    case plain => exact fun _ _ => rfl
    case elsewhere =>
      intro address found
      have there : (pointingMachine.located .indirectY).1.address = some 0x0300 := by
        decide +kernel
      obtain rfl := Option.some.inj (there.symm.trans found)
      decide
  obtain ⟨registers, -, -, -, cycles, otherCycles, first, second, -, indirect⟩ :=
    encodings_agree respelled
  have five : spelledOutMachine.step.1 = .ok 5 := by
    rw [step_of_executes also]
    exact congrArg Except.ok (by decide +kernel)
  have loaded : pointingMachine.step.2.cpu.registers.a = 0x77 := by decide +kernel
  have behind : pointingMachine.step.2.cpu.registers.pc = 0x0000 := by decide +kernel
  obtain rfl := Except.ok.inj (five.symm.trans second)
  rw [registers, loaded, behind, first, indirect rfl]
  exact ⟨rfl, five, rfl, rfl⟩

end Machine

end Nmos6502
