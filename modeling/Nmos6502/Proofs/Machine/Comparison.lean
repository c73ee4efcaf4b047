import Nmos6502.Proofs.Machine.DecimalLaw

/-!
# Comparisons and subtractions

A comparison and a subtraction without a borrow leave the same negative, zero and carry flags, in
decimal arithmetic as well, and take the same time.  The flags say how the two bytes compare as
unsigned numbers (`Machine.Orders`), which is what a branch after them goes by.  How they compare
as signed numbers takes the overflow, and that the subtraction alone leaves.
-/

set_option autoImplicit false

namespace Nmos6502

variable {World Other : Type}

def Mnemonic.compared : Mnemonic → Option Register
  | cmp => some .a
  | cpx => some .x
  | cpy => some .y
  | _ => none

/-! ## The flags of a difference -/

theorem Status.Compares.get_eq {first second : Status} {register value : Byte}
    (one : first.Compares register value) (other : second.Compares register value) :
    ∀ flag ∈ [Flag.negative, .zero, .carry], first.get flag = second.get flag := by
  obtain ⟨⟨negative, zero⟩, carry⟩ := one
  obtain ⟨⟨negative', zero'⟩, carry'⟩ := other
  intro flag member
  cases flag with
  | negative => exact negative.trans negative'.symm
  | zero => exact Bool.eq_iff_iff.mpr (zero.trans zero'.symm)
  | carry => exact Bool.eq_iff_iff.mpr (carry.trans carry'.symm)
  | irqDisable | decimal | brk | overflow | unused => simp at member

namespace Alu

variable {status : Status}

theorem value_complement (accumulator operand : Byte) (borrowless : status.carry = true) :
    (addBinary accumulator (~~~operand) status).value = accumulator - operand := by
  have bound := operand.isLt
  apply BitVec.eq_of_toNat_eq
  rw [toNat_value_addBinary, BitVec.toNat_not, BitVec.toNat_sub, borrowless, Bool.toNat_true]
  omega

theorem compares_subtraction (decimal : Bool) (terms : Terms) (borrowless : status.carry = true) :
    (Operation.subtraction.apply decimal terms status).status.Compares terms.accumulator
      terms.operand := by
  have bound := terms.operand.isLt
  have shows := shows_addBinary terms.accumulator (~~~terms.operand) status
  have carry := carry_addBinary terms.accumulator (~~~terms.operand) status
  rw [value_complement _ _ borrowless] at shows
  rw [BitVec.toNat_not, borrowless, Bool.toNat_true] at carry
  rw [status_subtraction]
  exact ⟨shows, carry.trans (by omega)⟩

theorem negative_ne_overflow_subtraction (decimal : Bool) (terms : Terms)
    (borrowless : status.carry = true) :
    (Operation.subtraction.apply decimal terms status).status.negative ≠
        (Operation.subtraction.apply decimal terms status).status.overflow ↔
      terms.accumulator.toInt < terms.operand.toInt := by
  have overflow := Operation.subtraction.overflow_binary terms status
  have total : Operation.subtraction.total terms.accumulator.toInt terms.operand.toInt
      status.carry = terms.accumulator.toInt - terms.operand.toInt := by
    rw [borrowless]
    exact Int.sub_zero _
  have negative : (Operation.subtraction.apply false terms status).status.negative = true ↔
      (terms.accumulator.toInt - terms.operand.toInt).bmod 256 < 0 := by
    have sign : (Operation.subtraction.apply false terms status).status.negative =
        (addBinary terms.accumulator (~~~terms.operand) status).value.msb := rfl
    rw [sign, value_complement _ _ borrowless, BitVec.msb_eq_toInt, decide_eq_true_iff,
      BitVec.toInt_sub]
  have range (byte : Byte) : -128 ≤ byte.toInt ∧ byte.toInt ≤ 127 := by
    have bound := byte.isLt
    rw [BitVec.toInt_eq_toNat_cond]
    omega
  have accumulatorRange := range terms.accumulator
  have operandRange := range terms.operand
  rw [total, representable_one] at overflow
  rw [status_subtraction, ← status_subtraction false, Ne, Bool.eq_iff_iff, negative, overflow,
    Int.bmod_def]
  split <;> omega

end Alu

namespace Machine

open Alu

variable {machine : Machine World}

/-! ## Order -/

def BranchesIf (machine : Machine World) (mnemonic : Mnemonic) (condition : Prop) : Prop :=
  machine.RunsA mnemonic →
    (machine.TakesBranch ↔ condition) ∧ (machine.PassesBranch ↔ ¬ condition)

theorem branchesIf {mnemonic : Mnemonic} {flag : Flag} {value : Bool} {condition : Prop}
    (branches : mnemonic.action = .branch flag value)
    (decides : machine.cpu.registers.status.get flag = value ↔ condition) :
    machine.BranchesIf mnemonic condition := by
  rintro ⟨instruction, executes, rfl⟩
  exact ⟨(takesBranch_iff executes branches).trans decides,
    (passesBranch_iff executes branches).trans (not_congr decides)⟩

/-- The flags give the order of the two bytes, and the branches follow it. -/
structure Orders (machine : Machine World) (value operand : Byte) : Prop where
  carry : machine.cpu.registers.status.carry = true ↔ operand.toNat ≤ value.toNat
  zero : machine.cpu.registers.status.zero = true ↔ value.toNat = operand.toNat
  bcs : machine.BranchesIf .bcs (operand.toNat ≤ value.toNat)
  bcc : machine.BranchesIf .bcc (value.toNat < operand.toNat)
  beq : machine.BranchesIf .beq (value.toNat = operand.toNat)
  bne : machine.BranchesIf .bne (value.toNat ≠ operand.toNat)

theorem orders_of_compares {value operand : Byte}
    (compares : machine.cpu.registers.status.Compares value operand) :
    machine.Orders value operand := by
  obtain ⟨⟨-, zero⟩, carry⟩ := compares
  have equal : machine.cpu.registers.status.zero = true ↔ value.toNat = operand.toNat := by
    have absorbed : 0 + operand = operand := BitVec.zero_add operand
    rw [zero, BitVec.toNat_inj, BitVec.sub_eq_iff_eq_add, absorbed]
  constructor
  case carry => exact carry
  case zero => exact equal
  case bcs => exact branchesIf rfl carry
  case bcc => exact branchesIf rfl (Bool.eq_false_iff.trans ((not_congr carry).trans Nat.not_le))
  case beq => exact branchesIf rfl equal
  case bne => exact branchesIf rfl (Bool.eq_false_iff.trans (not_congr equal))

/-! ## Two steps -/

/-- The machines agree in the accumulator and in all that an operand is reached by in this mode:
the index registers and the address to which one is added. -/
structure SamePlace (mode : Mode) (machine : Machine World) (other : Machine Other) : Prop where
  a : other.cpu.registers.a = machine.cpu.registers.a
  x : other.cpu.registers.x = machine.cpu.registers.x
  y : other.cpu.registers.y = machine.cpu.registers.y
  base : other.base mode = machine.base mode

theorem SamePlace.indexCrosses_eq {mode : Mode} {other : Machine Other}
    (same : SamePlace mode machine other) : other.indexCrosses mode = machine.indexCrosses mode := by
  obtain ⟨-, x, y, base⟩ := same
  cases mode with
  | absoluteX =>
      rw [indexCrosses, indexCrosses, base]
      cases machine.base .absoluteX with
      | none => rfl
      | some start => exact congrArg (Operand.crosses start) x
  | absoluteY | indirectY =>
      rw [indexCrosses, indexCrosses, base]
      cases machine.base _ with
      | none => rfl
      | some start => exact congrArg (Operand.crosses start) y
  | _ => rfl

theorem Operates.compares {mnemonic : Mnemonic} {register : Register} {mode : Mode}
    {operand : Byte} (operates : machine.Operates mnemonic mode operand)
    (comparison : mnemonic.compared = some register) :
    machine.step.2.cpu.registers.status.Compares (machine.cpu.registers.get register) operand := by
  obtain ⟨⟨⟨mnemonic, mode, cycles, penalty⟩, executes, rfl, rfl⟩, cell, last⟩ := operates
  obtain ⟨-, ⟨-, -, -, values⟩, -⟩ := step_effect executes
  obtain ⟨location, value, ends, compares⟩ : ∃ location value,
      [.read location value] <:+ machine.cpu.step.accesses machine.bus ∧
        machine.step.2.cpu.registers.status.Compares (machine.cpu.registers.get register)
          value := by
    cases mnemonic with
    | cmp | cpx | cpy =>
        cases comparison
        exact values
    | _ => cases comparison
  obtain ⟨-, rfl⟩ := Access.read.inj (List.head_eq_of_cons_eq (suffix_unique ends last rfl))
  exact compares

theorem Operates.keeps {mode : Mode} {operand : Byte}
    (operates : machine.Operates .cmp mode operand) :
    machine.step.2.cpu.registers.a = machine.cpu.registers.a ∧
      machine.step.2.cpu.registers.status.overflow = machine.cpu.registers.status.overflow ∧
      machine.step.2.cpu.registers.status.decimal = machine.cpu.registers.status.decimal := by
  obtain ⟨⟨instruction, executes, named, rfl⟩, -⟩ := operates
  obtain ⟨-, ⟨registers, -, flags, -⟩, -⟩ := step_effect executes
  have destinations : instruction.destinations = [] := by rw [Instruction.destinations, named]
  have changed : instruction.mnemonic.flags = [.negative, .zero, .carry] := by
    rw [named]
    rfl
  rw [destinations] at registers
  rw [changed] at flags
  exact ⟨registers .a (by decide) (by decide), flags .overflow (by decide),
    flags .decimal (by decide)⟩

/-- The first machine compares the accumulator with the operand and the second subtracts the
operand from it: both complete in the same time and leave the same three flags, and the second
leaves the order of the signed bytes besides. -/
structure AgreesWith (operand : Byte) (machine : Machine World) (subtracting : Machine Other) :
    Prop where
  cycles : ∃ cycles, machine.step.1 = .ok cycles ∧ subtracting.step.1 = .ok cycles
  flags : ∀ flag ∈ [Flag.negative, .zero, .carry],
    subtracting.step.2.cpu.registers.status.get flag =
      machine.step.2.cpu.registers.status.get flag
  orders : subtracting.step.2.Orders machine.cpu.registers.a operand
  signed : subtracting.step.2.cpu.registers.status.negative ≠
      subtracting.step.2.cpu.registers.status.overflow ↔
    machine.cpu.registers.a.toInt < operand.toInt

theorem agrees_of_samePlace {subtracting : Machine Other} {mode : Mode} {operand : Byte}
    (compares : machine.Operates .cmp mode operand)
    (subtracts : subtracting.Operates .sbc mode operand) (same : SamePlace mode machine subtracting)
    (borrowless : subtracting.cpu.registers.status.carry = true) :
    AgreesWith operand machine subtracting := by
  have subtraction : Mnemonic.sbc = Operation.subtraction.mnemonic := rfl
  obtain ⟨-, -, status⟩ := (subtracts.reckons subtraction).step
  have compared := compares_subtraction
    (subtracting.cpu.config.decimalMode && subtracting.cpu.registers.status.decimal)
    ⟨subtracting.cpu.registers.a, operand⟩ borrowless
  have signed := negative_ne_overflow_subtraction
    (subtracting.cpu.config.decimalMode && subtracting.cpu.registers.status.decimal)
    ⟨subtracting.cpu.registers.a, operand⟩ borrowless
  rw [← status, same.a] at compared signed
  have accumulator : Mnemonic.compared .cmp = some .a := rfl
  have comparing := compares.compares accumulator
  have cycles := subtracts.step rfl
  rw [same.indexCrosses_eq] at cycles
  exact ⟨⟨_, compares.step rfl, cycles⟩, compared.get_eq comparing, orders_of_compares compared,
    signed⟩

/-- A comparison with the accumulator and a subtraction without a borrow in the same place and on
the same byte leave the same three flags and take the same time, whether or not the subtraction
is decimal, and after the subtraction negative and overflow give the order of the signed bytes.
The comparison leaves the accumulator, overflow and the decimal flag as they were.  After every
comparison the flags and the branches give the order of the bytes. -/
theorem comparison_agrees_with_subtraction (machine : Machine World) :
    (∀ {instruction : Instruction}, machine.Executes instruction →
        instruction.mnemonic.reads = true →
          ∃ operand, machine.Operates instruction.mnemonic instruction.mode operand) ∧
      (∀ {Other : Type} {subtracting : Machine Other} {mode : Mode} {operand : Byte},
        machine.Operates .cmp mode operand → subtracting.Operates .sbc mode operand →
          SamePlace mode machine subtracting →
            subtracting.cpu.registers.status.carry = true →
              AgreesWith operand machine subtracting) ∧
      (∀ {mode : Mode} {operand : Byte}, machine.Operates .cmp mode operand →
        machine.step.2.cpu.registers.a = machine.cpu.registers.a ∧
          machine.step.2.cpu.registers.status.overflow = machine.cpu.registers.status.overflow ∧
          machine.step.2.cpu.registers.status.decimal = machine.cpu.registers.status.decimal) ∧
      ∀ {mnemonic : Mnemonic} {register : Register} {mode : Mode} {operand : Byte},
        mnemonic.compared = some register → machine.Operates mnemonic mode operand →
          machine.step.2.Orders (machine.cpu.registers.get register) operand := by
  refine ⟨exists_operates, agrees_of_samePlace, Operates.keeps, ?_⟩
  intro mnemonic register mode operand comparison operates
  exact orders_of_compares (operates.compares comparison)

def comparingMachine : Machine Unit where
  cpu := { registers := { a := 0x80 }, config := {} }
  bus := { ram := Ram.zero.store 0 [0xC9, 0x01, 0xB0, 0x10], world := () }

/-- The accumulator is above the operand as an unsigned number and below it as a signed one. -/
theorem comparingMachine_orders :
    comparingMachine.step.2.TakesBranch ∧
      (subtractingMachine ⟨0x80, 0x01⟩ true true).step.2.cpu.registers.status.negative ≠
        (subtractingMachine ⟨0x80, 0x01⟩ true true).step.2.cpu.registers.status.overflow := by
  have compares : comparingMachine.Operates .cmp .immediate 0x01 :=
    ⟨⟨{ mnemonic := .cmp, mode := .immediate, cycles := 2, pagePenalty := false },
      ⟨⟨rfl, Or.inl rfl⟩, by decide +kernel⟩, rfl, rfl⟩, 1, by decide +kernel⟩
  have subtracts : (subtractingMachine ⟨0x80, 0x01⟩ true true).Operates .sbc .immediate 0x01 :=
    ⟨⟨immediateSubtraction, ⟨⟨rfl, Or.inl rfl⟩, by decide +kernel⟩, rfl, rfl⟩, 1,
      by decide +kernel⟩
  have branches : comparingMachine.step.2.RunsA .bcs :=
    ⟨{ mnemonic := .bcs, mode := .relative, cycles := 2, pagePenalty := true },
      ⟨⟨by decide +kernel, Or.inl (by decide +kernel)⟩, by decide +kernel⟩, rfl⟩
  have place : SamePlace .immediate comparingMachine (subtractingMachine ⟨0x80, 0x01⟩ true true) :=
    ⟨rfl, rfl, rfl, (base_of_index_eq_none rfl).trans (base_of_index_eq_none rfl).symm⟩
  obtain ⟨-, agrees, -, orders⟩ := comparison_agrees_with_subtraction comparingMachine
  have signed := (agrees compares subtracts place rfl).signed
  have accumulator : Mnemonic.compared .cmp = some .a := rfl
  have ordered := orders accumulator compares
  exact ⟨(ordered.bcs branches).1.mpr (by decide), signed.mpr (by decide)⟩

end Machine

end Nmos6502
