import Nmos6502.Proofs.Instruction.Accesses

/-!
# What an instruction changes

An instruction changes few registers and few flags, and all others keep their values.
Which ones it may change is a table over the mnemonics (`Instruction.destinations`,
`Mnemonic.stackPointer`, `Mnemonic.flags`), and `Instruction.Computes` says which
value a destination gets, be it a register or the cell that the step wrote last, and
what the flags then mean.
-/

set_option autoImplicit false

namespace Nmos6502

variable {World : Type}

/-! ## The tables -/

def Instruction.destinations (instruction : Instruction) : List Register :=
  match instruction.mnemonic with
  | .lda | .adc | .sbc | .and | .ora | .eor | .txa | .tya | .pla => [.a]
  | .asl | .lsr | .rol | .ror => if instruction.mode = .accumulator then [.a] else []
  | .ldx | .tax | .tsx | .inx | .dex => [.x]
  | .ldy | .tay | .iny | .dey => [.y]
  | _ => []

namespace Mnemonic

def stackPointer (registers : Registers) : Mnemonic → Byte
  | txs => registers.x
  | pha | php => registers.sp - 1
  | pla | plp => registers.sp + 1
  | jsr => registers.sp - 2
  | rts => registers.sp + 2
  | brk => registers.sp - 3
  | rti => registers.sp + 3
  | _ => registers.sp

def flags : Mnemonic → List Flag
  | lda | ldx | ldy | tax | tay | tsx | txa | tya | and | ora | eor | inc | dec | inx | dex
  | iny | dey | pla => [.negative, .zero]
  | cmp | cpx | cpy | asl | lsr | rol | ror => [.negative, .zero, .carry]
  | adc | sbc => [.negative, .overflow, .zero, .carry]
  | bit => [.negative, .overflow, .zero]
  | clc | sec => [.carry]
  | cld | sed => [.decimal]
  | clv => [.overflow]
  | cli | sei | brk => [.irqDisable]
  | plp | rti => [.carry, .zero, .irqDisable, .decimal, .overflow, .negative]
  | _ => []

end Mnemonic

def Status.Shows (status : Status) (value : Byte) : Prop :=
  status.negative = value.getLsbD 7 ∧ (status.zero = true ↔ value = 0)

def Status.Compares (status : Status) (register value : Byte) : Prop :=
  status.Shows (register - value) ∧ (status.carry = true ↔ value.toNat ≤ register.toNat)

/-- The value that an instruction puts into its destination, and what the flags that it
changes then mean; sums have no place here.  A byte that the step read or wrote is taken from
its last accesses. -/
def Instruction.Computes (instruction : Instruction) (before after : Registers)
    (transfers : List Access) : Prop :=
  let ends := fun accesses : List Access => accesses <:+ transfers
  let moves := fun value result : Byte => result = value ∧ after.status.Shows result
  let loads := fun result : Byte => ∃ cell, ends [.read cell result] ∧ after.status.Shows result
  let combines := fun operation : Byte → Byte → Byte =>
    ∃ cell value, ends [.read cell value] ∧ moves (operation before.a value) after.a
  let counts := fun operation : Byte → Byte =>
    ∃ cell value, ends [.read cell value, .write cell (operation value)] ∧
      after.status.Shows (operation value)
  let shifts := fun (operation : Byte → Byte) (place : Nat) =>
    if instruction.mode = .accumulator then
      moves (operation before.a) after.a ∧ after.status.carry = before.a.getLsbD place
    else
      ∃ cell value, ends [.read cell value, .write cell (operation value)] ∧
        after.status.Shows (operation value) ∧ after.status.carry = value.getLsbD place
  let compares := fun register : Byte =>
    ∃ cell value, ends [.read cell value] ∧ after.status.Compares register value
  let carry := before.status.carry
  match instruction.mnemonic with
  | .lda | .pla => loads after.a
  | .ldx => loads after.x
  | .ldy => loads after.y
  | .and => combines fun accumulator value => accumulator &&& value
  | .ora => combines fun accumulator value => accumulator ||| value
  | .eor => combines fun accumulator value => accumulator ^^^ value
  | .txa => moves before.x after.a
  | .tya => moves before.y after.a
  | .tax => moves before.a after.x
  | .tsx => moves before.sp after.x
  | .inx => moves (before.x + 1) after.x
  | .dex => moves (before.x - 1) after.x
  | .tay => moves before.a after.y
  | .iny => moves (before.y + 1) after.y
  | .dey => moves (before.y - 1) after.y
  | .inc => counts fun value => value + 1
  | .dec => counts fun value => value - 1
  | .asl => shifts (fun value => value <<< 1) 7
  | .rol => shifts (fun value => value <<< 1 ||| if carry then 0x01 else 0) 7
  | .lsr => shifts (fun value => value >>> 1) 0
  | .ror => shifts (fun value => value >>> 1 ||| if carry then 0x80 else 0) 0
  | .cmp => compares before.a
  | .cpx => compares before.x
  | .cpy => compares before.y
  | .bit =>
      ∃ cell value, ends [.read cell value] ∧ after.status.negative = value.getLsbD 7 ∧
        after.status.overflow = value.getLsbD 6 ∧
        (after.status.zero = true ↔ before.a &&& value = 0)
  | .clc => after.status.carry = false
  | .sec => after.status.carry = true
  | .cld => after.status.decimal = false
  | .sed => after.status.decimal = true
  | .clv => after.status.overflow = false
  | .cli => after.status.irqDisable = false
  | .sei | .brk => after.status.irqDisable = true
  | .plp => ∃ cell pulled, ends [.read cell pulled] ∧ after.status = Status.ofBits pulled
  | .rti =>
      ∃ cell pulled low high, ends [.read cell pulled, low, high] ∧
        after.status = Status.ofBits pulled
  | _ => True

/-- What an instruction leaves of the registers that it found, given the accesses of its
step; the program counter has no place here. -/
structure Instruction.Effect (instruction : Instruction) (before after : Registers)
    (transfers : List Access) : Prop where
  registers : ∀ register, register ≠ .sp → register ∉ instruction.destinations →
    after.get register = before.get register
  sp : after.sp = instruction.mnemonic.stackPointer before
  flags : ∀ flag, flag ∉ instruction.mnemonic.flags →
    after.status.get flag = before.status.get flag
  values : instruction.Computes before after transfers

/-! ## Single operations -/

namespace Status

theorem get_describing {flag : Flag} (status : Status) (value : Byte)
    (untouched : flag ∉ [.negative, .zero]) :
    (status.describing value).get flag = status.get flag := by
  cases flag <;> simp_all [describing, get]

theorem get_afterCompare {flag : Flag} (status : Status) (register value : Byte)
    (untouched : flag ∉ [.negative, .zero, .carry]) :
    (status.afterCompare register value).get flag = status.get flag := by
  cases flag <;> simp_all [afterCompare, describing, get]

theorem get_afterShift {flag : Flag} (status : Status) (result : Byte) (shiftedOut : Bool)
    (untouched : flag ∉ [.negative, .zero, .carry]) :
    (status.afterShift result shiftedOut).get flag = status.get flag := by
  cases flag <;> simp_all [afterShift, describing, get]

theorem get_afterBitTest {flag : Flag} (status : Status) (accumulator value : Byte)
    (untouched : flag ∉ [.negative, .overflow, .zero]) :
    (status.afterBitTest accumulator value).get flag = status.get flag := by
  cases flag <;> simp_all [afterBitTest, get]

theorem shows_describing (status : Status) (value : Byte) :
    (status.describing value).Shows value := by
  refine ⟨?_, ?_⟩
  · exact BitVec.msb_eq_getLsbD_last value
  · exact beq_iff_eq

theorem compares_afterCompare (status : Status) (register value : Byte) :
    (status.afterCompare register value).Compares register value :=
  ⟨status.shows_describing (register - value), decide_eq_true_iff⟩

end Status

namespace Shift

theorem apply_rotateLeft (value : Byte) (carry : Bool) :
    (rotateLeft.apply value carry).1 = value <<< 1 ||| if carry then 0x01 else 0 := by
  cases carry <;> rfl

theorem apply_rotateRight (value : Byte) (carry : Bool) :
    (rotateRight.apply value carry).1 = value >>> 1 ||| if carry then 0x80 else 0 := by
  cases carry <;> rfl

end Shift

namespace Alu

theorem get_addBinary {flag : Flag} (accumulator operand : Byte) (status : Status)
    (untouched : flag ∉ [.negative, .overflow, .zero, .carry]) :
    (addBinary accumulator operand status).status.get flag = status.get flag := by
  cases flag <;> simp_all [addBinary, Status.afterSum, Status.describing, Status.get]

theorem get_add {flag : Flag} (decimal : Bool) (accumulator operand : Byte) (status : Status)
    (untouched : flag ∉ [.negative, .overflow, .zero, .carry]) :
    (add decimal accumulator operand status).status.get flag = status.get flag := by
  cases decimal with
  | false => exact get_addBinary accumulator operand status untouched
  | true => cases flag <;> simp_all [add, addDecimal, Status.get]

theorem get_subtract {flag : Flag} (decimal : Bool) (accumulator operand : Byte) (status : Status)
    (untouched : flag ∉ [.negative, .overflow, .zero, .carry]) :
    (subtract decimal accumulator operand status).status.get flag = status.get flag := by
  cases decimal with
  | false => exact get_addBinary accumulator (~~~operand) status untouched
  | true => cases flag <;> simp_all [subtract, subtractDecimal, Status.get]

end Alu

namespace Registers

theorem get_put_of_ne (registers : Registers) {register target : Register} (value : Byte)
    (different : register ≠ target) :
    (registers.put target value).get register = registers.get register := by
  rw [← registers.get_set_of_ne value different]
  cases register <;> rfl

theorem get_accumulate (registers : Registers) {register : Register} (result : Alu.Result)
    (different : register ≠ .a) :
    (registers.accumulate result).get register = registers.get register := by
  cases register with
  | a => exact absurd rfl different
  | x | y | sp => rfl

theorem get_congr {first second : Registers} (a : first.a = second.a) (x : first.x = second.x)
    (y : first.y = second.y) {register : Register} (general : register ≠ .sp) :
    first.get register = second.get register := by
  cases register with
  | a => exact a
  | x => exact x
  | y => exact y
  | sp => exact absurd rfl general

end Registers

namespace Operand

variable {operand : Operand}

theorem run_fetch_accumulator (missing : operand.address = Option.none) (registers : Registers)
    (bus : Bus World) : (operand.fetch registers).run bus = (registers.a, bus) := by
  simp [fetch, missing]

theorem run_replace_accumulator (missing : operand.address = Option.none) (registers : Registers)
    (value : Byte) (bus : Bus World) :
    (operand.replace registers value).run bus = ({ registers with a := value }, bus) := by
  simp [replace, missing]

end Operand

/-! ## Actions -/

namespace Instruction

variable {instruction : Instruction} {operand : Operand} {before : Registers}
  {transfers : List Access}

theorem Effect.put {target : Register} {value : Byte} (general : target ≠ .sp)
    (destinations : instruction.destinations = [target])
    (pointer : instruction.mnemonic.stackPointer before = before.sp)
    (flags : instruction.mnemonic.flags = [.negative, .zero])
    (values : instruction.Computes before (before.put target value) transfers) :
    instruction.Effect before (before.put target value) transfers := by
  constructor
  case registers =>
    intro register _ untouched
    rw [destinations, List.mem_singleton] at untouched
    exact before.get_put_of_ne value untouched
  case sp => exact (before.get_put_of_ne value general.symm).trans pointer.symm
  case flags =>
    intro flag untouched
    rw [flags] at untouched
    exact before.status.get_describing value untouched
  case values => exact values

theorem Effect.accumulate {result : Alu.Result} (destinations : instruction.destinations = [.a])
    (pointer : instruction.mnemonic.stackPointer before = before.sp)
    (flags : ∀ flag, flag ∉ instruction.mnemonic.flags →
      result.status.get flag = before.status.get flag)
    (values : instruction.Computes before (before.accumulate result) transfers) :
    instruction.Effect before (before.accumulate result) transfers := by
  constructor
  case registers =>
    intro register _ untouched
    rw [destinations, List.mem_singleton] at untouched
    exact before.get_accumulate result untouched
  case sp => exact pointer.symm
  case flags => exact flags
  case values => exact values

theorem Effect.keep {after : Registers} (a : after.a = before.a) (x : after.x = before.x)
    (y : after.y = before.y) (sp : after.sp = instruction.mnemonic.stackPointer before)
    (flags : ∀ flag, flag ∉ instruction.mnemonic.flags →
      after.status.get flag = before.status.get flag)
    (values : instruction.Computes before after transfers) :
    instruction.Effect before after transfers :=
  ⟨fun _ general _ => Registers.get_congr a x y general, sp, flags, values⟩

theorem Effect.describe {status : Status}
    (pointer : instruction.mnemonic.stackPointer before = before.sp)
    (flags : ∀ flag, flag ∉ instruction.mnemonic.flags →
      status.get flag = before.status.get flag)
    (values : instruction.Computes before { before with status } transfers) :
    instruction.Effect before { before with status } transfers :=
  .keep rfl rfl rfl pointer.symm flags values

theorem get_of_pulled {flag : Flag} (status other : Status)
    (untouched : flag ∉ [.carry, .zero, .irqDisable, .decimal, .overflow, .negative]) :
    status.get flag = other.get flag := by
  cases flag with
  | brk | unused => rfl
  | _ => simp at untouched

theorem Effect.of_fetch {cell : Word} {after : Byte → Registers} {bus : Bus World}
    (address : operand.address = some cell)
    (last : ((operand.fetch before).bind fun value => .done (after value)).accesses bus <:+
      transfers)
    (effect : ∀ value, [.read cell value] <:+ transfers →
      instruction.Effect before (after value) transfers) :
    instruction.Effect before
      (((operand.fetch before).bind fun value => .done (after value)).run bus).1 transfers := by
  rw [Operand.accesses_fetch_done address] at last
  have result : (((operand.fetch before).bind fun value => .done (after value)).run bus).1 =
      after (bus.read cell).1 := by
    simp [Program.run_bind, Operand.fetch, address]
  rw [result]
  exact effect _ last

theorem Effect.of_update {cell : Word} {after : Byte → Registers} {update : Byte → Byte}
    {bus : Bus World} (address : operand.address = some cell)
    (last : ((operand.fetch before).bind fun value =>
      operand.replace (after value) (update value)).accesses bus <:+ transfers)
    (effect : ∀ value, [.read cell value, .write cell (update value)] <:+ transfers →
      instruction.Effect before (after value) transfers) :
    instruction.Effect before
      (((operand.fetch before).bind fun value =>
        operand.replace (after value) (update value)).run bus).1 transfers := by
  rw [Operand.accesses_update address] at last
  have result : (((operand.fetch before).bind fun value =>
      operand.replace (after value) (update value)).run bus).1 = after (bus.read cell).1 := by
    simp [Program.run_bind, Operand.fetch, Operand.replace, address]
  rw [result]
  exact effect _ last

theorem Effect.of_advance {after : Registers} {count : Word}
    (effect : instruction.Effect (before.advance count) after transfers) :
    instruction.Effect before after transfers := by
  obtain ⟨registers, sp, flags, values⟩ := effect
  refine ⟨?_, sp, flags, values⟩
  intro register general untouched
  refine (registers register general untouched).trans ?_
  refine Registers.get_congr ?_ ?_ ?_ general <;> rfl

theorem effect_execute (fits : instruction.Fits operand) (decimalMode : Bool)
    (registers : Registers) (bus : Bus World)
    (last : (instruction.mnemonic.action.execute decimalMode operand registers).accesses bus <:+
      transfers) :
    instruction.Effect registers
      ((instruction.mnemonic.action.execute decimalMode operand registers).run bus).1
      transfers := by
  obtain ⟨mnemonic, mode, cycles, penalty⟩ := instruction
  cases mnemonic with
  | lda | ldx | ldy =>
      obtain ⟨cell, address⟩ := fits.cell rfl
      refine .of_fetch address last fun value read => ?_
      exact .put (by decide) rfl rfl rfl ⟨cell, read, Status.shows_describing _ _⟩
  | and | ora | eor =>
      obtain ⟨cell, address⟩ := fits.cell rfl
      refine .of_fetch address last fun value read => ?_
      exact .put (by decide) rfl rfl rfl ⟨cell, value, read, rfl, Status.shows_describing _ _⟩
  | tax | tay | tsx | txa | tya | inx | dex | iny | dey =>
      exact .put (by decide) rfl rfl rfl ⟨rfl, Status.shows_describing _ _⟩
  | adc =>
      obtain ⟨cell, address⟩ := fits.cell rfl
      refine .of_fetch address last fun value _ => ?_
      exact .accumulate rfl rfl (fun _ => Alu.get_add _ _ _ _) trivial
  | sbc =>
      obtain ⟨cell, address⟩ := fits.cell rfl
      refine .of_fetch address last fun value _ => ?_
      exact .accumulate rfl rfl (fun _ => Alu.get_subtract _ _ _ _) trivial
  | cmp | cpx | cpy =>
      obtain ⟨cell, address⟩ := fits.cell rfl
      refine .of_fetch address last fun value read => ?_
      exact .describe rfl (fun _ => Status.get_afterCompare _ _ _)
        ⟨cell, value, read, Status.compares_afterCompare _ _ _⟩
  | bit =>
      obtain ⟨cell, address⟩ := fits.cell rfl
      refine .of_fetch address last fun value read => ?_
      exact .describe rfl (fun _ => Status.get_afterBitTest _ _ _)
        ⟨cell, value, read, rfl, rfl, beq_iff_eq⟩
  | inc | dec =>
      obtain ⟨cell, address⟩ := fits.cell rfl
      refine .of_update address last fun value written => ?_
      exact .describe rfl (fun _ => Status.get_describing _ _)
        ⟨cell, value, written, Status.shows_describing _ _⟩
  | clc | sec | cli | sei | clv | cld | sed =>
      refine .describe rfl ?_ rfl
      intro flag untouched
      exact Status.get_set_of_ne _ _ fun same => untouched (List.mem_singleton.mpr same)
  | asl | lsr | rol | ror =>
      obtain ⟨accumulator, missing⟩ | ⟨notAccumulator, cell, address⟩ := fits.shift (by simp)
      · simp only [Mnemonic.action, Action.execute, Program.bind_eq, Program.run_bind,
          Operand.run_fetch_accumulator missing, Operand.run_replace_accumulator missing]
        constructor
        case registers =>
          intro register _ untouched
          simp only [destinations, if_pos accumulator, List.mem_singleton] at untouched
          cases register with
          | a => exact absurd rfl untouched
          | x | y | sp => rfl
        case sp => rfl
        case flags => exact fun _ => Status.get_afterShift _ _ _
        case values =>
          simp only [Computes, if_pos accumulator, ← Shift.apply_rotateLeft,
            ← Shift.apply_rotateRight]
          exact ⟨⟨by trivial, registers.status.shows_describing _⟩, rfl⟩
      · refine .of_update address last fun value written => ?_
        refine .describe rfl (fun _ => Status.get_afterShift _ _ _) ?_
        simp only [Computes, if_neg notAccumulator, ← Shift.apply_rotateLeft,
          ← Shift.apply_rotateRight]
        exact ⟨cell, value, written, registers.status.shows_describing _, rfl⟩
  | pla =>
      constructor
      case registers =>
        intro register general untouched
        refine (Registers.get_put_of_ne _ _ fun same => untouched (List.mem_singleton.mpr same)).trans ?_
        refine Registers.get_congr ?_ ?_ ?_ general <;> rfl
      case sp => rfl
      case flags => exact fun _ => Status.get_describing _ _
      case values => exact ⟨_, last, Status.shows_describing _ _⟩
  | plp => exact .keep rfl rfl rfl rfl (fun _ => get_of_pulled _ _) ⟨_, _, last, rfl⟩
  | rti =>
      exact .keep rfl rfl rfl (Registers.add_one_thrice _) (fun _ => get_of_pulled _ _)
        ⟨_, _, _, _, last, rfl⟩
  | brk =>
      have third : registers.sp - 1 - 1 - 1 = registers.sp - 3 := by bv_omega
      refine .keep rfl rfl rfl third ?_ rfl
      intro flag untouched
      exact registers.status.get_set_of_ne true fun same => untouched (List.mem_singleton.mpr same)
  | jsr =>
      exact .keep rfl rfl rfl (Registers.sub_one_sub_one registers.sp) (fun _ _ => rfl) trivial
  | rts =>
      exact .keep rfl rfl rfl (Registers.add_one_add_one registers.sp) (fun _ _ => rfl) trivial
  | sta | stx | sty =>
      obtain ⟨cell, address⟩ := fits.cell rfl
      simp only [Mnemonic.action, Action.execute, address]
      exact .keep rfl rfl rfl rfl (fun _ _ => rfl) trivial
  | bpl | bmi | bvc | bvs | bcc | bcs | bne | beq =>
      simp only [Mnemonic.action, Action.execute, Program.pure_eq, Program.run_done]
      split
      · exact .keep rfl rfl rfl rfl (fun _ _ => rfl) trivial
      · exact .keep rfl rfl rfl rfl (fun _ _ => rfl) trivial
  | pha | php | txs | jmp | nop => exact .keep rfl rfl rfl rfl (fun _ _ => rfl) trivial

end Instruction

/-! ## Steps -/

namespace Machine

/-- Every documented instruction completes, in each of its modes, and changes what the
tables give it and nothing else of the processor but the program counter and the count of
cycles. -/
theorem step_effect {machine : Machine World} {instruction : Instruction}
    (executes : machine.Executes instruction) :
    (∃ cycles, machine.step.1 = .ok cycles) ∧
      instruction.Effect machine.cpu.registers machine.step.2.cpu.registers
        (machine.cpu.step.accesses machine.bus) ∧
      machine.step.2.cpu.config = machine.cpu.config ∧
      machine.step.2.cpu.interrupts = machine.cpu.interrupts := by
  have last : (machine.acts instruction).accesses (machine.located instruction.mode).2 <:+
      machine.cpu.step.accesses machine.bus := by
    rw [accesses_of_executes executes]
    exact (List.suffix_append _ _).trans (List.suffix_cons _ _)
  have effect := Instruction.effect_execute (fits_located executes) _ _ _ last
  rw [step_of_executes executes]
  exact ⟨⟨_, rfl⟩, effect.of_advance.of_advance, rfl, rfl⟩

def pointerMachine : Machine Unit where
  cpu := { registers := { sp := 0xFD }, config := {} }
  bus := { ram := Ram.zero.set 0 0x9A, world := () }

/-- The move to the stack pointer describes nothing. -/
theorem pointerMachine_moved :
    pointerMachine.Executes { mnemonic := .txs, mode := .implied, cycles := 2, pagePenalty := false } ∧
      pointerMachine.step.2.cpu.registers.sp = 0 ∧
      pointerMachine.step.2.cpu.registers.status.zero = false := by
  have executes : pointerMachine.Executes
      { mnemonic := .txs, mode := .implied, cycles := 2, pagePenalty := false } :=
    ⟨by decide +kernel, by decide +kernel⟩
  obtain ⟨-, effect, -⟩ := step_effect executes
  exact ⟨executes, effect.sp, effect.flags .zero (by decide)⟩

end Machine

end Nmos6502
