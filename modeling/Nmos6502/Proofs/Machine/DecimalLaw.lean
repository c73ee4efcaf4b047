import Nmos6502.Proofs.Alu.AnyDigits
import Nmos6502.Proofs.Instruction.Timing
import Nmos6502.Proofs.Machine.CarryChain

/-!
# Decimal additions and subtractions of any bytes

What a step leaves that adds or subtracts in decimal arithmetic, whatever the bytes are
(`Machine.decimal_of_any_digits`).  The accumulator and four flags change; no other flag and no
other register does but the program counter (`Machine.Accumulates`).
-/

set_option autoImplicit false

namespace Nmos6502

namespace Machine

open Alu

variable {World : Type} {machine : Machine World} {operation : Operation}

theorem Operates.reckons {mnemonic : Mnemonic} {mode : Mode} {operand : Byte}
    (operates : machine.Operates mnemonic mode operand) (named : mnemonic = operation.mnemonic) :
    machine.Reckons operation
      (machine.cpu.config.decimalMode && machine.cpu.registers.status.decimal)
      ⟨machine.cpu.registers.a, operand⟩ := by
  obtain ⟨⟨instruction, executes, rfl, -⟩, last⟩ := operates
  exact ⟨⟨instruction, executes, named⟩, rfl, rfl, last⟩

theorem exists_reckons (runs : machine.RunsA operation.mnemonic) :
    ∃ operand,
      machine.Reckons operation
        (machine.cpu.config.decimalMode && machine.cpu.registers.status.decimal)
        ⟨machine.cpu.registers.a, operand⟩ := by
  obtain ⟨instruction, executes, named⟩ := runs
  have reads : instruction.mnemonic.reads = true := by
    rw [named]
    cases operation <;> rfl
  obtain ⟨operand, operates⟩ := exists_operates executes reads
  exact ⟨operand, operates.reckons named⟩

structure Accumulates (machine : Machine World) : Prop where
  completes : ∃ cycles, machine.step.1 = .ok cycles
  x : machine.step.2.cpu.registers.x = machine.cpu.registers.x
  y : machine.step.2.cpu.registers.y = machine.cpu.registers.y
  sp : machine.step.2.cpu.registers.sp = machine.cpu.registers.sp
  decimal : machine.step.2.cpu.registers.status.decimal = machine.cpu.registers.status.decimal
  irqDisable : machine.step.2.cpu.registers.status.irqDisable =
    machine.cpu.registers.status.irqDisable

theorem accumulates (runs : machine.RunsA operation.mnemonic) : machine.Accumulates := by
  obtain ⟨instruction, executes, named⟩ := runs
  obtain ⟨completes, ⟨registers, sp, flags, -⟩, -⟩ := step_effect executes
  have destinations : instruction.destinations = [.a] := by
    rw [Instruction.destinations, named]
    cases operation <;> rfl
  have changed : instruction.mnemonic.flags = [.negative, .overflow, .zero, .carry] := by
    rw [named]
    cases operation <;> rfl
  rw [destinations] at registers
  rw [changed] at flags
  constructor
  case completes => exact completes
  case x => exact registers .x (by decide) (by decide)
  case y => exact registers .y (by decide) (by decide)
  case sp =>
    rw [sp, named]
    cases operation <;> rfl
  case decimal => exact flags .decimal (by decide)
  case irqDisable => exact flags .irqDisable (by decide)

/-- An addition in decimal arithmetic leaves the moved total modulo 256 and a carry if it does
not fit; negative and overflow describe the total before it was moved, and zero the binary sum.
A subtraction leaves the moved difference modulo 256 and the flags of the binary subtraction. -/
theorem decimal_of_any_digits (machine : Machine World) :
    let carry := machine.cpu.registers.status.carry
    let after := machine.step.2.cpu.registers
    (∀ operation, machine.RunsA (Operation.mnemonic operation) →
        machine.cpu.config.decimalMode = true → machine.cpu.registers.status.decimal = true →
          ∃ operand, machine.Reckons operation true ⟨machine.cpu.registers.a, operand⟩) ∧
      (∀ accumulator operand, machine.Reckons .addition true ⟨accumulator, operand⟩ →
        let signed := (accumulator &&& 0xF0).toInt + (operand &&& 0xF0).toInt +
          lowTotal accumulator operand carry
        machine.Accumulates ∧
          after.status.negative = (digitTotal accumulator operand carry).testBit 7 ∧
          (after.status.overflow = true ↔ ¬ (-128 ≤ signed ∧ signed ≤ 127)) ∧
          (after.status.zero = true ↔
            (accumulator.toNat + operand.toNat + carry.toNat) % 256 = 0) ∧
          after.a.toNat = movedTotal accumulator operand carry % 256 ∧
          (after.status.carry = true ↔ 256 ≤ movedTotal accumulator operand carry)) ∧
      ∀ accumulator operand, machine.Reckons .subtraction true ⟨accumulator, operand⟩ →
        machine.Accumulates ∧
          (∀ {Other : Type} (binary : Machine Other),
            binary.Reckons .subtraction false ⟨accumulator, operand⟩ →
              binary.cpu.registers.status.carry = carry →
                ∀ flag ∈ [Flag.negative, .overflow, .zero, .carry],
                  after.status.get flag = binary.step.2.cpu.registers.status.get flag) ∧
          (after.a.toNat : Int) = movedRemainder accumulator operand carry % 256 := by
  refine ⟨?_, ?_, ?_⟩
  · intro operation runs obeyed set
    have reckons := exists_reckons runs
    rwa [obeyed, set] at reckons
  · intro accumulator operand reckons
    obtain ⟨-, value, status⟩ := reckons.step
    dsimp only
    rw [leaves] at value
    rw [value, status]
    refine ⟨accumulates reckons.executes, negative_addDecimal _ _ _, ?_, zero_addDecimal _ _ _,
      toNat_value_addDecimal _ _ _, carry_addDecimal _ _ _⟩
    have overflow := overflow_addDecimal accumulator operand machine.cpu.registers.status
    exact overflow.trans (not_congr representable_one)
  · intro accumulator operand reckons
    obtain ⟨-, value, status⟩ := reckons.step
    rw [leaves] at value
    rw [value, status]
    refine ⟨accumulates reckons.executes, ?_, toNat_value_subtractDecimal _ _ _⟩
    intro Other binary binarily same flag member
    obtain ⟨-, -, also⟩ := binarily.step
    rw [also]
    have flags := status_subtractDecimal accumulator operand machine.cpu.registers.status
    exact (congrArg (·.get flag) flags).trans (get_addBinary_congr _ _ same.symm member)

/-- A machine that adds two bytes of which neither is a decimal number. -/
def addingMachine : Machine Unit where
  cpu :=
    { registers := { a := 0x0F, status := { carry := true, decimal := true } }, config := {} }
  bus := { ram := Ram.zero.store 0 [0x69, 0x0F], world := () }

theorem addingMachine_sum :
    addingMachine.step.2.cpu.registers.a = 0x15 ∧
      (subtractingMachine ⟨0x0F, 0x1B⟩ true true).step.2.cpu.registers.a = 0x94 ∧
      (subtractingMachine ⟨0x0F, 0x1B⟩ true true).step.2.cpu.registers.status.carry = false := by
  have adds : addingMachine.Reckons .addition true ⟨0x0F, 0x0F⟩ :=
    ⟨⟨{ mnemonic := .adc, mode := .immediate, cycles := 2, pagePenalty := false },
      ⟨⟨rfl, Or.inl rfl⟩, by decide +kernel⟩, rfl⟩, rfl, rfl, 1, by decide +kernel⟩
  have subtracts (decimal : Bool) : (subtractingMachine ⟨0x0F, 0x1B⟩ true decimal).Reckons
      .subtraction decimal ⟨0x0F, 0x1B⟩ :=
    ⟨⟨immediateSubtraction, ⟨⟨rfl, Or.inl rfl⟩, by cases decimal <;> decide +kernel⟩, rfl⟩, rfl,
      rfl, 1, by cases decimal <;> decide +kernel⟩
  obtain ⟨-, addition, -⟩ := decimal_of_any_digits addingMachine
  obtain ⟨-, -, -, -, sum, -⟩ := addition _ _ adds
  obtain ⟨-, -, subtraction⟩ := decimal_of_any_digits (subtractingMachine ⟨0x0F, 0x1B⟩ true true)
  obtain ⟨-, flags, difference⟩ := subtraction _ _ (subtracts true)
  refine ⟨BitVec.eq_of_toNat_eq sum, BitVec.eq_of_toNat_eq (Int.ofNat.inj difference), ?_⟩
  exact (flags _ (subtracts false) rfl .carry (by decide)).trans (by decide +kernel)

end Machine

end Nmos6502
