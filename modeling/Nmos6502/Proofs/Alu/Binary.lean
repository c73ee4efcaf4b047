import Nmos6502.Proofs.Alu.Operation
import Nmos6502.Proofs.Instruction.Effects

/-!
# Binary arithmetic

One byte of a binary addition or subtraction, as integers see it: the result and the carry make
up the total of the bytes (`Operation.total_binary`), and overflow is set if the total of the
bytes as signed numbers is none that a byte can hold (`Operation.overflow_binary`).

In a long number the last byte alone has a sign (`signed`).  A byte put below it changes
neither that sign nor whether the number can be held (`representable_cons`), so the overflow of
the last byte is that of the whole number.
-/

set_option autoImplicit false

namespace Nmos6502

namespace Alu

/-- The two's complement number held by the bytes, least significant first. -/
def signed : List Byte → Int
  | [] => 0
  | [top] => top.toInt
  | low :: rest => low.toNat + 256 * signed rest

theorem signed_cons (low next : Byte) (rest : List Byte) :
    signed (low :: next :: rest) = low.toNat + 256 * signed (next :: rest) :=
  rfl

/-- The value lies in the range of two's complement numbers of so many bytes, from half the
modulus below zero up. -/
def Representable (bytes : Nat) (value : Int) : Prop :=
  -(256 ^ bytes : Int) ≤ 2 * value ∧ 2 * value < 256 ^ bytes

instance (bytes : Nat) (value : Int) : Decidable (Representable bytes value) :=
  inferInstanceAs (Decidable (_ ∧ _))

theorem representable_cons (low : Byte) (bytes : Nat) (value : Int) :
    Representable (bytes + 2) (low.toNat + 256 * value) ↔ Representable (bytes + 1) value := by
  have bound := low.isLt
  have even : (256 ^ (bytes + 1) : Int) = 2 * (128 * 256 ^ bytes) := by ring
  have next : (256 ^ (bytes + 2) : Int) = 256 * 256 ^ (bytes + 1) := by ring
  simp only [Representable, next, even]
  -- The modulus is even, so the low byte has no room to carry a value over its half.
  generalize (128 * 256 ^ bytes : Int) = half
  omega

/-! ## One byte -/

theorem toNat_value_addBinary (accumulator operand : Byte) (status : Status) :
    (addBinary accumulator operand status).value.toNat =
      (accumulator.toNat + operand.toNat + status.carry.toNat) % 256 := by
  rw [← toNat_binarySum, ← Word.toNat_low]
  rfl

theorem carry_addBinary (accumulator operand : Byte) (status : Status) :
    (addBinary accumulator operand status).status.carry = true ↔
      256 ≤ accumulator.toNat + operand.toNat + status.carry.toNat := by
  rw [← toNat_binarySum]
  exact decide_eq_true_iff

theorem toNat_addBinary (accumulator operand : Byte) (status : Status) :
    (addBinary accumulator operand status).value.toNat +
        256 * (addBinary accumulator operand status).status.carry.toNat =
      accumulator.toNat + operand.toNat + status.carry.toNat := by
  have accumulatorBound := accumulator.isLt
  have operandBound := operand.isLt
  have carryBound := status.carry.toNat_le
  have carried := carry_addBinary accumulator operand status
  rw [toNat_value_addBinary]
  cases next : (addBinary accumulator operand status).status.carry with
  | false =>
      have small := mt carried.mpr (ne_true_of_eq_false next)
      rw [Bool.toNat_false]
      omega
  | true =>
      have large := carried.mp next
      rw [Bool.toNat_true]
      omega

theorem shows_addBinary (accumulator operand : Byte) (status : Status) :
    (addBinary accumulator operand status).status.Shows
      (addBinary accumulator operand status).value :=
  status.shows_describing _

theorem overflow_addBinary (accumulator operand : Byte) (status : Status) :
    (addBinary accumulator operand status).status.overflow = true ↔
      ¬ Representable 1 (accumulator.toInt + operand.toInt + status.carry.toNat) := by
  have value := toNat_value_addBinary accumulator operand status
  have accumulatorBound := accumulator.isLt
  have operandBound := operand.isLt
  have carryBound := status.carry.toNat_le
  have signs : (addBinary accumulator operand status).status.overflow =
      ((accumulator.msb ^^ (addBinary accumulator operand status).value.msb) &&
        (operand.msb ^^ (addBinary accumulator operand status).value.msb)) := by
    rw [← BitVec.msb_xor, ← BitVec.msb_xor, ← BitVec.msb_and]
    rfl
  rw [signs]
  simp only [BitVec.msb_eq_decide, BitVec.toInt_eq_msb_cond, Representable]
  generalize (addBinary accumulator operand status).value.toNat = result at value ⊢
  -- One case for each choice of the three signs; in each the sum is bounded on both sides.
  grind

theorem toInt_complement (byte : Byte) : (~~~byte).toInt = -1 - byte.toInt := by
  have bound := byte.isLt
  simp only [BitVec.toInt_eq_toNat_cond, BitVec.toNat_not]
  grind

namespace Operation

variable (operation : Operation) (terms : Terms) (status : Status)

theorem total_binary :
    operation.total terms.accumulator.toNat terms.operand.toNat status.carry =
      (operation.apply false terms status).value.toNat +
        256 * operation.unit (operation.apply false terms status).status.carry := by
  cases operation with
  | addition =>
      have sum := toNat_addBinary terms.accumulator terms.operand status
      simp only [total_addition, unit_addition, apply, add, Bool.false_eq_true, if_false]
      omega
  | subtraction =>
      have sum := toNat_addBinary terms.accumulator (~~~terms.operand) status
      have bound := terms.operand.isLt
      rw [BitVec.toNat_not] at sum
      simp only [total_subtraction, total_addition, unit_subtraction, apply, subtract,
        Bool.false_eq_true, if_false]
      omega

theorem overflow_binary :
    (operation.apply false terms status).status.overflow = true ↔
      ¬ Representable 1
        (operation.total terms.accumulator.toInt terms.operand.toInt status.carry) := by
  cases operation with
  | addition => exact overflow_addBinary terms.accumulator terms.operand status
  | subtraction =>
      rw [total_subtraction, ← toInt_complement]
      exact overflow_addBinary terms.accumulator (~~~terms.operand) status

theorem shows_binary :
    (operation.apply false terms status).status.Shows
      (operation.apply false terms status).value := by
  cases operation with
  | addition => exact shows_addBinary _ _ _
  | subtraction => exact shows_addBinary _ _ _

end Operation

end Alu

end Nmos6502
