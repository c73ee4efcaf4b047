import Nmos6502.Proofs.Alu.Operation

/-!
# Decimal arithmetic

A byte of two decimal digits stands for a number below a hundred (`IsDecimal`, `decimalValue`).
Moving a digit sum past the unused codes takes ten from it and leaves a carry
(`digit_skipUnused`), and moving a digit difference back over them adds ten to it and leaves a
borrow (`digit_borrowUnused`).  Used once for each digit, these give the result and the carry
of a whole byte (`Operation.total_decimal`).

The carry of a decimal subtraction is the one of the binary difference.  It serves, because the
high digits with the borrow of the low ones have the sign of the whole bytes
(`msb_binaryDifference`).
-/

set_option autoImplicit false

namespace Nmos6502

namespace Alu

/-- Both halves of the byte are decimal digits. -/
def IsDecimal (byte : Byte) : Prop := byte.toNat / 16 ≤ 9 ∧ byte.toNat % 16 ≤ 9

instance (byte : Byte) : Decidable (IsDecimal byte) := inferInstanceAs (Decidable (_ ∧ _))

def decimalValue (byte : Byte) : Nat := 10 * (byte.toNat / 16) + byte.toNat % 16

theorem IsDecimal.value_lt {byte : Byte} (valid : IsDecimal byte) : decimalValue byte < 100 := by
  obtain ⟨high, low⟩ := valid
  unfold decimalValue
  omega

/-! ## Digits of a byte -/

theorem toNat_lowDigit (byte : Byte) : (byte &&& 0x0F).toNat = byte.toNat % 16 :=
  Nat.and_two_pow_sub_one_eq_mod byte.toNat 4

theorem toNat_highDigit (byte : Byte) : (byte >>> 4).toNat = byte.toNat / 16 := by
  rw [BitVec.toNat_ushiftRight, Nat.shiftRight_eq_div_pow]

theorem toNat_joined (high low : Byte) :
    ((high <<< 4) ||| (low &&& 0x0F)).toNat = 16 * (high.toNat % 16) + low.toNat % 16 := by
  have digit : low.toNat % 16 < 2 ^ 4 := Nat.mod_lt _ (by decide)
  have shifted : (high <<< 4).toNat = (high.toNat % 16) <<< 4 := by
    rw [BitVec.toNat_shiftLeft, Nat.shiftLeft_eq, Nat.shiftLeft_eq]
    omega
  rw [BitVec.toNat_or, toNat_lowDigit, shifted, ← Nat.shiftLeft_add_eq_or_of_lt digit,
    Nat.shiftLeft_eq]
  omega

theorem isDecimal_joined {high low : Byte} (highDigit : high.toNat % 16 ≤ 9)
    (lowDigit : low.toNat % 16 ≤ 9) : IsDecimal ((high <<< 4) ||| (low &&& 0x0F)) := by
  unfold IsDecimal
  rw [toNat_joined]
  omega

theorem decimalValue_joined (high low : Byte) :
    decimalValue ((high <<< 4) ||| (low &&& 0x0F)) =
      10 * (high.toNat % 16) + low.toNat % 16 := by
  rw [decimalValue, toNat_joined]
  omega

/-! ## Addition -/

theorem toNat_skipUnused {digit : Byte} (fits : digit.toNat + 6 < 256) :
    (skipUnused digit).toNat = if 9 < digit.toNat then digit.toNat + 6 else digit.toNat := by
  rw [skipUnused, apply_ite BitVec.toNat, BitVec.toNat_add]
  exact if_congr Iff.rfl (Nat.mod_eq_of_lt fits) rfl

theorem digit_skipUnused {digit : Byte} (small : digit.toNat ≤ 19) :
    (skipUnused digit).toNat % 16 ≤ 9 ∧
      (skipUnused digit).toNat % 16 + 10 * (decide (0x0F < skipUnused digit)).toNat =
        digit.toNat := by
  have moved : (skipUnused digit).toNat = _ := toNat_skipUnused (by omega)
  have carries : 0x0F < skipUnused digit ↔ 15 < (skipUnused digit).toNat := Iff.rfl
  by_cases large : 9 < digit.toNat
  · rw [if_pos large] at moved
    rw [decide_eq_true (carries.mpr (by omega)), Bool.toNat_true, moved]
    omega
  · rw [if_neg large] at moved
    rw [decide_eq_false (mt carries.mp (by omega)), Bool.toNat_false, moved]
    omega

theorem digit_sum {left right : Byte} (leftDigit : left.toNat ≤ 9) (rightDigit : right.toNat ≤ 9)
    (carry : Bool) :
    (skipUnused (left + right + carryByte carry)).toNat % 16 ≤ 9 ∧
      (skipUnused (left + right + carryByte carry)).toNat % 16 +
          10 * (decide (0x0F < skipUnused (left + right + carryByte carry))).toNat =
        left.toNat + right.toNat + carry.toNat := by
  have carryBound := carry.toNat_le
  have sum : (left + right + carryByte carry).toNat =
      left.toNat + right.toNat + carry.toNat := by
    rw [BitVec.toNat_add, BitVec.toNat_add, toNat_carryByte]
    omega
  rw [← sum]
  exact digit_skipUnused (by omega)

theorem digit_lowDigitSum {accumulator operand : Byte}
    (accumulatorDigit : accumulator.toNat % 16 ≤ 9) (operandDigit : operand.toNat % 16 ≤ 9)
    (carry : Bool) :
    (lowDigitSum accumulator operand carry).toNat % 16 ≤ 9 ∧
      (lowDigitSum accumulator operand carry).toNat % 16 +
          10 * (decide (0x0F < lowDigitSum accumulator operand carry)).toNat =
        accumulator.toNat % 16 + operand.toNat % 16 + carry.toNat := by
  rw [← toNat_lowDigit accumulator] at accumulatorDigit ⊢
  rw [← toNat_lowDigit operand] at operandDigit ⊢
  exact digit_sum accumulatorDigit operandDigit carry

theorem digit_highDigitSum {accumulator operand : Byte}
    (accumulatorDigit : accumulator.toNat / 16 ≤ 9) (operandDigit : operand.toNat / 16 ≤ 9)
    (carry : Bool) :
    (skipUnused (highDigitSum accumulator operand carry)).toNat % 16 ≤ 9 ∧
      (skipUnused (highDigitSum accumulator operand carry)).toNat % 16 +
          10 * (decide (0x0F < skipUnused (highDigitSum accumulator operand carry))).toNat =
        accumulator.toNat / 16 + operand.toNat / 16 +
          (decide (0x0F < lowDigitSum accumulator operand carry)).toNat := by
  rw [← toNat_highDigit accumulator] at accumulatorDigit ⊢
  rw [← toNat_highDigit operand] at operandDigit ⊢
  exact digit_sum accumulatorDigit operandDigit _

theorem addDecimal_law {accumulator operand : Byte} (accumulatorValid : IsDecimal accumulator)
    (operandValid : IsDecimal operand) (status : Status) :
    IsDecimal (addDecimal accumulator operand status).value ∧
      decimalValue (addDecimal accumulator operand status).value +
          100 * (addDecimal accumulator operand status).status.carry.toNat =
        decimalValue accumulator + decimalValue operand + status.carry.toNat := by
  obtain ⟨lowDigit, low⟩ := digit_lowDigitSum accumulatorValid.2 operandValid.2 status.carry
  obtain ⟨highDigit, high⟩ := digit_highDigitSum accumulatorValid.1 operandValid.1 status.carry
  have value : decimalValue (addDecimal accumulator operand status).value =
      10 * ((skipUnused (highDigitSum accumulator operand status.carry)).toNat % 16) +
        (lowDigitSum accumulator operand status.carry).toNat % 16 :=
    decimalValue_joined _ _
  have carry : (addDecimal accumulator operand status).status.carry =
      decide (0x0F < skipUnused (highDigitSum accumulator operand status.carry)) := rfl
  refine ⟨isDecimal_joined highDigit lowDigit, ?_⟩
  rw [value, carry, decimalValue, decimalValue]
  omega

/-! ## Subtraction -/

theorem toInt_difference (left right : Byte) (borrow : Bool) :
    (left.setWidth 16 - right.setWidth 16 - carryWord borrow : Word).toInt =
      left.toNat - right.toNat - borrow.toNat := by
  have leftBound := left.isLt
  have rightBound := right.isLt
  have borrowBound := borrow.toNat_le
  rw [BitVec.toInt_eq_toNat_cond, BitVec.toNat_sub, BitVec.toNat_sub, BitVec.toNat_setWidth,
    BitVec.toNat_setWidth, toNat_carryWord]
  omega

theorem toInt_binaryDifference (accumulator operand : Byte) (carry : Bool) :
    (binaryDifference accumulator operand carry).toInt =
      accumulator.toNat - operand.toNat - (!carry).toNat :=
  toInt_difference accumulator operand (!carry)

theorem toInt_lowDigitDifference (accumulator operand : Byte) (carry : Bool) :
    (lowDigitDifference accumulator operand carry).toInt =
      (accumulator.toNat % 16 : Nat) - (operand.toNat % 16 : Nat) - (!carry).toNat := by
  rw [lowDigitDifference, toInt_difference, toNat_lowDigit, toNat_lowDigit]

theorem toInt_highDigitDifference (accumulator operand : Byte) (carry : Bool) :
    (highDigitDifference accumulator operand carry).toInt =
      (accumulator.toNat / 16 : Nat) - (operand.toNat / 16 : Nat) -
        (lowDigitDifference accumulator operand carry).msb.toNat := by
  rw [highDigitDifference, toInt_difference, toNat_highDigit, toNat_highDigit]

theorem msb_binaryDifference (accumulator operand : Byte) (carry : Bool) :
    (binaryDifference accumulator operand carry).msb =
      (highDigitDifference accumulator operand carry).msb := by
  have borrowBound := (!carry).toNat_le
  rw [BitVec.msb_eq_toInt, BitVec.msb_eq_toInt, toInt_binaryDifference,
    toInt_highDigitDifference, BitVec.msb_eq_toInt, toInt_lowDigitDifference]
  by_cases borrows :
      ((accumulator.toNat % 16 : Nat) : Int) - (operand.toNat % 16 : Nat) - (!carry).toNat < 0
  · rw [decide_eq_true borrows, Bool.toNat_true]
    exact decide_eq_decide.mpr (by omega)
  · rw [decide_eq_false borrows, Bool.toNat_false]
    exact decide_eq_decide.mpr (by omega)

theorem digit_borrowUnused {digit : Word} (atLeast : -10 ≤ digit.toInt) (atMost : digit.toInt ≤ 9) :
    (borrowUnused digit).low.toNat % 16 ≤ 9 ∧
      ((borrowUnused digit).low.toNat % 16 : Nat) - 10 * (digit.msb.toNat : Int) = digit.toInt := by
  have bound := digit.isLt
  have signed := digit.toInt_eq_toNat_cond
  rw [borrowUnused, BitVec.msb_eq_toInt]
  by_cases negative : digit.toInt < 0
  · have moved : (digit - 6).toNat = digit.toNat - 6 := by
      rw [BitVec.toNat_sub]
      change (2 ^ 16 - 6 + digit.toNat) % 2 ^ 16 = _
      omega
    rw [if_pos (decide_eq_true negative), decide_eq_true negative, Bool.toNat_true,
      Word.toNat_low, moved]
    omega
  · rw [decide_eq_false negative, if_neg Bool.false_ne_true, Bool.toNat_false, Word.toNat_low]
    omega

theorem digit_difference {left right : Byte} (leftDigit : left.toNat ≤ 9)
    (rightDigit : right.toNat ≤ 9) (borrow : Bool) :
    let difference := (left.setWidth 16 - right.setWidth 16 - carryWord borrow : Word)
    (borrowUnused difference).low.toNat % 16 ≤ 9 ∧
      ((borrowUnused difference).low.toNat % 16 : Nat) - 10 * (difference.msb.toNat : Int) =
        left.toNat - right.toNat - borrow.toNat := by
  have borrowBound := borrow.toNat_le
  have value := toInt_difference left right borrow
  rw [← value]
  exact digit_borrowUnused (by omega) (by omega)

theorem digit_lowDigitDifference {accumulator operand : Byte}
    (accumulatorDigit : accumulator.toNat % 16 ≤ 9) (operandDigit : operand.toNat % 16 ≤ 9)
    (carry : Bool) :
    (borrowUnused (lowDigitDifference accumulator operand carry)).low.toNat % 16 ≤ 9 ∧
      ((borrowUnused (lowDigitDifference accumulator operand carry)).low.toNat % 16 : Nat) -
          10 * ((lowDigitDifference accumulator operand carry).msb.toNat : Int) =
        (accumulator.toNat % 16 : Nat) - (operand.toNat % 16 : Nat) - (!carry).toNat := by
  rw [← toNat_lowDigit accumulator] at accumulatorDigit ⊢
  rw [← toNat_lowDigit operand] at operandDigit ⊢
  exact digit_difference accumulatorDigit operandDigit (!carry)

theorem digit_highDigitDifference {accumulator operand : Byte}
    (accumulatorDigit : accumulator.toNat / 16 ≤ 9) (operandDigit : operand.toNat / 16 ≤ 9)
    (carry : Bool) :
    (borrowUnused (highDigitDifference accumulator operand carry)).low.toNat % 16 ≤ 9 ∧
      ((borrowUnused (highDigitDifference accumulator operand carry)).low.toNat % 16 : Nat) -
          10 * ((highDigitDifference accumulator operand carry).msb.toNat : Int) =
        (accumulator.toNat / 16 : Nat) - (operand.toNat / 16 : Nat) -
          (lowDigitDifference accumulator operand carry).msb.toNat := by
  rw [← toNat_highDigit accumulator] at accumulatorDigit ⊢
  rw [← toNat_highDigit operand] at operandDigit ⊢
  exact digit_difference accumulatorDigit operandDigit _

theorem subtractDecimal_law {accumulator operand : Byte} (accumulatorValid : IsDecimal accumulator)
    (operandValid : IsDecimal operand) (status : Status) :
    IsDecimal (subtractDecimal accumulator operand status).value ∧
      (decimalValue (subtractDecimal accumulator operand status).value : Int) -
          100 * (!(subtractDecimal accumulator operand status).status.carry).toNat =
        decimalValue accumulator - decimalValue operand - (!status.carry).toNat := by
  obtain ⟨lowDigit, low⟩ := digit_lowDigitDifference accumulatorValid.2 operandValid.2 status.carry
  obtain ⟨highDigit, high⟩ :=
    digit_highDigitDifference accumulatorValid.1 operandValid.1 status.carry
  have value : decimalValue (subtractDecimal accumulator operand status).value =
      10 * ((borrowUnused (highDigitDifference accumulator operand status.carry)).low.toNat % 16) +
        (borrowUnused (lowDigitDifference accumulator operand status.carry)).low.toNat % 16 :=
    decimalValue_joined _ _
  have carry : (!(subtractDecimal accumulator operand status).status.carry) =
      (highDigitDifference accumulator operand status.carry).msb :=
    (Bool.not_not _).trans (msb_binaryDifference accumulator operand status.carry)
  refine ⟨isDecimal_joined highDigit lowDigit, ?_⟩
  rw [value, carry, decimalValue, decimalValue]
  omega

namespace Operation

variable (operation : Operation) {terms : Terms} (status : Status)

theorem total_decimal (accumulatorValid : IsDecimal terms.accumulator)
    (operandValid : IsDecimal terms.operand) :
    IsDecimal (operation.apply true terms status).value ∧
      operation.total (decimalValue terms.accumulator) (decimalValue terms.operand) status.carry =
        decimalValue (operation.apply true terms status).value +
          100 * operation.unit (operation.apply true terms status).status.carry := by
  cases operation with
  | addition =>
      obtain ⟨valid, sum⟩ := addDecimal_law accumulatorValid operandValid status
      refine ⟨valid, ?_⟩
      simp only [total_addition, unit_addition, apply, add, if_true]
      omega
  | subtraction =>
      obtain ⟨valid, difference⟩ := subtractDecimal_law accumulatorValid operandValid status
      refine ⟨valid, ?_⟩
      simp only [total, unit, apply, subtract, if_true]
      omega

end Operation

end Alu

end Nmos6502
