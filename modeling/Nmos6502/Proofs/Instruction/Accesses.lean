import Nmos6502.Proofs.Addressing.Location
import Nmos6502.Proofs.Interrupt.Frame

/-!
# The bus accesses of a step

A device sees every access, so one too many is as wrong as a wrong value.  The law
`Cpu.Transfers` lists what a step puts on the bus, in its order, and
`step_accesses` shows that a step of any machine makes these accesses and no
others, whatever devices answer them.

After the opcode come the operand bytes, then the pointer bytes, and last the accesses
that the mnemonic asks for (`Instruction.DataTransfers`).
-/

set_option autoImplicit false

namespace Nmos6502

variable {World : Type}

def Mnemonic.usesCell : Mnemonic → Bool
  | lda | ldx | ldy | sta | stx | sty | adc | sbc | cmp | cpx | cpy | and | ora | eor | bit
  | inc | dec => true
  | _ => false

theorem mode_of_mnemonic : ∀ opcode : Byte, ∀ instruction ∈ decode opcode,
    (instruction.mnemonic.usesCell = true →
        ¬ (instruction.mode = .implied ∨ instruction.mode = .accumulator)) ∧
      (instruction.mnemonic ∈ [.asl, .lsr, .rol, .ror] → instruction.mode ≠ .implied) ∧
      (instruction.mnemonic = .jsr → instruction.mode = .absolute) ∧
      (instruction.mnemonic = .brk → instruction.mode = .implied) := by
  decide +kernel

namespace Instruction

/-- The accesses that an instruction makes when its operand is located, in their order.
The registers are those before its opcode was fetched. -/
def DataTransfers (instruction : Instruction) (registers : Registers) (address : Option Word)
    (data : List Access) : Prop :=
  let top := Registers.stackCell registers.sp
  let below := Registers.stackCell (registers.sp - 1)
  let pulled := fun count => Registers.stackCell (registers.sp + count)
  match instruction.mnemonic with
  | .lda | .ldx | .ldy | .adc | .sbc | .cmp | .cpx | .cpy | .and | .ora | .eor | .bit =>
      ∃ cell value, address = some cell ∧ data = [.read cell value]
  | .sta => ∃ cell, address = some cell ∧ data = [.write cell registers.a]
  | .stx => ∃ cell, address = some cell ∧ data = [.write cell registers.x]
  | .sty => ∃ cell, address = some cell ∧ data = [.write cell registers.y]
  | .inc | .dec =>
      ∃ cell value result, address = some cell ∧ data = [.read cell value, .write cell result]
  | .asl | .lsr | .rol | .ror =>
      if instruction.mode = .accumulator then data = []
      else
        ∃ cell value result, address = some cell ∧ data = [.read cell value, .write cell result]
  | .pha => data = [.write top registers.a]
  | .php => data = [.write top (registers.status.bits ||| 0x30)]
  | .jsr => data = [.write top (registers.pc + 2).high, .write below (registers.pc + 2).low]
  | .pla | .plp => ∃ value, data = [.read (pulled 1) value]
  | .rts => ∃ low high, data = [.read (pulled 1) low, .read (pulled 2) high]
  | .rti =>
      ∃ saved low high,
        data = [.read (pulled 1) saved, .read (pulled 2) low, .read (pulled 3) high]
  | .brk =>
      ∃ low high,
        data =
          [.write top (registers.pc + 2).high, .write below (registers.pc + 2).low,
            .write (Registers.stackCell (registers.sp - 2)) (registers.status.bits ||| 0x30),
            .read 0xFFFE low, .read 0xFFFF high]
  | _ => data = []

end Instruction

/-- What a step puts on the bus. -/
inductive Cpu.Transfers (cpu : Cpu) : List Access → Prop where
  | interrupt {kind : Interrupt} (requests : cpu.Requests kind) (low high : Byte) :
      Transfers cpu
        [.write (Registers.stackCell cpu.registers.sp) cpu.registers.pc.high,
          .write (Registers.stackCell (cpu.registers.sp - 1)) cpu.registers.pc.low,
          .write (Registers.stackCell (cpu.registers.sp - 2))
            ((cpu.registers.status.bits ||| 0x20) &&& 0xEF),
          .read kind.vector low, .read (kind.vector + 1) high]
  | undocumented (idle : cpu.Idle) {opcode : Byte} (undocumented : decode opcode = none) :
      Transfers cpu [.read cpu.registers.pc opcode]
  | documented (idle : cpu.Idle) {opcode : Byte} {instruction : Instruction}
      (documented : decode opcode = some instruction) {located data : List Access}
      {address : Option Word} (locates : instruction.mode.Locates cpu.registers located address)
      (acts : instruction.DataTransfers cpu.registers address data) :
      Transfers cpu (.read cpu.registers.pc opcode :: (located ++ data))

/-! ## The accesses of an action -/

namespace Operand

theorem accesses_fetch {operand : Operand} {cell : Word} (address : operand.address = some cell)
    (registers : Registers) (bus : Bus World) :
    (operand.fetch registers).accesses bus = [.read cell (bus.read cell).1] := by
  simp [fetch, address]

theorem run_fetch {operand : Operand} {cell : Word} (address : operand.address = some cell)
    (registers : Registers) (bus : Bus World) :
    (operand.fetch registers).run bus = bus.read cell := by
  simp [fetch, address]

theorem accesses_fetch_done {α : Type} {operand : Operand} {cell : Word}
    (address : operand.address = some cell) (registers : Registers) (rest : Byte → α)
    (bus : Bus World) :
    ((operand.fetch registers).bind fun value => .done (rest value)).accesses bus =
      [.read cell (bus.read cell).1] := by
  rw [Program.accesses_bind, accesses_fetch address]
  rfl

theorem accesses_update {operand : Operand} {cell : Word} (address : operand.address = some cell)
    (registers : Registers) (after : Byte → Registers) (result : Byte → Byte) (bus : Bus World) :
    ((operand.fetch registers).bind fun value =>
        operand.replace (after value) (result value)).accesses bus =
      [.read cell (bus.read cell).1, .write cell (result (bus.read cell).1)] := by
  simp [Program.accesses_bind, fetch, replace, address]

theorem accesses_update_accumulator {operand : Operand} (address : operand.address = Option.none)
    (registers : Registers) (after : Byte → Registers) (result : Byte → Byte) (bus : Bus World) :
    ((operand.fetch registers).bind fun value =>
        operand.replace (after value) (result value)).accesses bus = [] := by
  simp [fetch, replace, address]

end Operand

namespace Instruction

/-- The operand is one that a documented instruction can have. -/
structure Fits (instruction : Instruction) (operand : Operand) : Prop where
  documented : ∃ opcode, decode opcode = some instruction
  addressed : operand.address = none ↔
    instruction.mode = .implied ∨ instruction.mode = .accumulator

namespace Fits

variable {instruction : Instruction} {operand : Operand}

theorem cell_of_mode (fits : instruction.Fits operand) (notImplied : instruction.mode ≠ .implied)
    (notAccumulator : instruction.mode ≠ .accumulator) : ∃ cell, operand.address = some cell :=
  Option.ne_none_iff_exists'.mp fun missing =>
    (fits.addressed.mp missing).elim notImplied notAccumulator

theorem cell (fits : instruction.Fits operand) (needed : instruction.mnemonic.usesCell = true) :
    ∃ cell, operand.address = some cell := by
  obtain ⟨opcode, documented⟩ := fits.documented
  have mode := (mode_of_mnemonic opcode instruction documented).1 needed
  exact fits.cell_of_mode (fun implied => mode (Or.inl implied))
    fun accumulator => mode (Or.inr accumulator)

theorem shift (fits : instruction.Fits operand)
    (shifts : instruction.mnemonic ∈ [.asl, .lsr, .rol, .ror]) :
    (instruction.mode = .accumulator ∧ operand.address = none) ∨
      (instruction.mode ≠ .accumulator ∧ ∃ cell, operand.address = some cell) := by
  obtain ⟨opcode, documented⟩ := fits.documented
  have notImplied := (mode_of_mnemonic opcode instruction documented).2.1 shifts
  by_cases accumulator : instruction.mode = .accumulator
  · exact Or.inl ⟨accumulator, fits.addressed.mpr (Or.inr accumulator)⟩
  · exact Or.inr ⟨accumulator, fits.cell_of_mode notImplied accumulator⟩

end Fits

theorem dataTransfers_execute {instruction : Instruction} {operand : Operand}
    (fits : instruction.Fits operand) (decimalMode : Bool) (registers : Registers)
    (bus : Bus World) :
    instruction.DataTransfers registers operand.address
      ((instruction.mnemonic.action.execute decimalMode operand
        ((registers.advance 1).advance (BitVec.ofNat 16 instruction.mode.operandLength))).accesses
          bus) := by
  obtain ⟨opcode, documented⟩ := fits.documented
  obtain ⟨-, -, calls, breaks⟩ := mode_of_mnemonic opcode instruction documented
  obtain ⟨mnemonic, mode, cycles, penalty⟩ := instruction
  cases mnemonic with
  | lda | ldx | ldy | adc | sbc | cmp | cpx | cpy | and | ora | eor | bit =>
      obtain ⟨location, address⟩ := fits.cell rfl
      exact ⟨location, _, address, Operand.accesses_fetch_done address _ _ bus⟩
  | sta | stx | sty =>
      obtain ⟨location, address⟩ := fits.cell rfl
      refine ⟨location, address, ?_⟩
      simp only [Mnemonic.action, Action.execute, address]
      rfl
  | inc | dec =>
      obtain ⟨location, address⟩ := fits.cell rfl
      exact ⟨location, _, _, address, Operand.accesses_update address _ _ _ bus⟩
  | asl | lsr | rol | ror =>
      obtain ⟨accumulator, missing⟩ | ⟨notAccumulator, location, address⟩ := fits.shift (by simp)
      · simp only [DataTransfers, if_pos accumulator]
        exact Operand.accesses_update_accumulator missing _ _ _ bus
      · simp only [DataTransfers, if_neg notAccumulator]
        exact ⟨location, _, _, address, Operand.accesses_update address _ _ _ bus⟩
  | pha => rfl
  | php =>
      simp only [DataTransfers, ← Status.pushed_true]
      rfl
  | jsr =>
      obtain rfl : mode = .absolute := calls rfl
      have returnAddress : registers.pc + 1 + 2 - 1 = registers.pc + 2 := by bv_omega
      simp only [DataTransfers, ← returnAddress]
      rfl
  | pla | plp => exact ⟨_, rfl⟩
  | rts => exact ⟨_, _, Registers.accesses_pullWord _ bus⟩
  | rti =>
      have second : registers.sp + 1 + 1 = registers.sp + 2 := Registers.add_one_add_one _
      have third : registers.sp + 1 + 1 + 1 = registers.sp + 3 := Registers.add_one_thrice _
      simp only [DataTransfers, ← second, ← third]
      exact ⟨_, _, _, rfl⟩
  | brk =>
      obtain rfl : mode = .implied := breaks rfl
      have resume : registers.pc + 1 + 0 + 1 = registers.pc + 2 := by bv_omega
      simp only [DataTransfers, ← Status.pushed_true, ← resume]
      exact ⟨_, _, Registers.accesses_enter _ .brk bus⟩
  | _ => rfl

end Instruction

namespace Machine

theorem transfers_of_requests {machine : Machine World} {kind : Interrupt}
    (requests : machine.cpu.Requests kind) :
    machine.cpu.Transfers (machine.cpu.step.accesses machine.bus) := by
  rw [accesses_of_requests requests, Registers.accesses_enter, requests.hardware,
    Status.pushed_false]
  exact .interrupt requests _ _

theorem fits_located {machine : Machine World} {instruction : Instruction}
    (executes : machine.Executes instruction) :
    instruction.Fits (machine.located instruction.mode).1 :=
  ⟨⟨_, executes.2⟩, Addressing.address_resolve_eq_none_iff⟩

theorem transfers_of_executes {machine : Machine World} {instruction : Instruction}
    (executes : machine.Executes instruction) :
    machine.cpu.Transfers (machine.cpu.step.accesses machine.bus) := by
  rw [accesses_of_executes executes]
  exact .documented executes.1 executes.2 (Addressing.locates _ _ _)
    (Instruction.dataTransfers_execute (fits_located executes) _ _ _)

theorem suffix_accesses {machine : Machine World} {instruction : Instruction}
    (executes : machine.Executes instruction) :
    (machine.acts instruction).accesses (machine.located instruction.mode).2 <:+
      machine.cpu.step.accesses machine.bus := by
  rw [accesses_of_executes executes]
  exact (List.suffix_append _ _).trans (List.suffix_cons _ _)

theorem accesses_eq_append {machine : Machine World} {instruction : Instruction}
    (executes : machine.Executes instruction) :
    ∃ front data address, machine.cpu.step.accesses machine.bus = front ++ data ∧
      (∀ address value, .write address value ∉ front) ∧
        instruction.DataTransfers machine.cpu.registers address data := by
  refine ⟨_ :: _, _, _, accesses_of_executes executes, ?_,
    Instruction.dataTransfers_execute (fits_located executes) _ _ _⟩
  intro address value member
  rcases List.mem_cons.mp member with same | later
  · cases same
  · exact Addressing.write_notMem_accesses _ _ _ _ _ later

/-- The accesses of a step are those of the law, whatever is mapped, and the bus sees them
one after the other and nothing else. -/
theorem step_accesses (machine : Machine World) :
    machine.cpu.Transfers (machine.cpu.step.accesses machine.bus) ∧
      machine.bus.Carries (machine.cpu.step.accesses machine.bus) machine.step.2.bus := by
  constructor
  · obtain idle | ⟨kind, requests⟩ := machine.cpu.idle_or_requests
    · cases opcode : decode (machine.bus.read machine.cpu.registers.pc).1 with
      | none =>
          rw [accesses_of_undocumented idle opcode]
          exact .undocumented idle opcode
      | some instruction => exact transfers_of_executes ⟨idle, opcode⟩
    · exact transfers_of_requests requests
  · rw [bus_step]
    exact machine.cpu.step.carries_accesses machine.bus

end Machine

end Nmos6502
