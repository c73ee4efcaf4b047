import Nmos6502.Proofs.Alu.Decimal
import Nmos6502.Proofs.Width.Calculation

/-!
# Addition and subtraction in fixed width

Addition and subtraction with carry as calculations: binary sums in sixteen bits, the digits of a
decimal sum in eight, and the differences of a decimal subtraction in sixteen bits with a sign.
The bytes need not hold decimal digits.  Two digits of four bits and a carry make 31 at most, and
37 when they are moved past the unused codes; a difference is no less than -16, and -22 when it is
moved back over them.
-/

set_option autoImplicit false

namespace Nmos6502

namespace Calculation

/-! ## Addition -/

def binarySum (accumulator operand : Byte) (carry : Bool) : Calculation Int := do
  let terms ← sum (.unsigned 16) accumulator.toNat operand.toNat
  sum (.unsigned 16) terms carry.toNat

def addBinary (accumulator operand : Byte) (status : Status) : Calculation Alu.Result := do
  let number ← binarySum accumulator operand status.carry
  let sum : Word := BitVec.ofInt 16 number
  return { value := sum.low, status := status.afterSum accumulator operand sum }

def digitSum (left right : Byte) (carry : Bool) : Calculation Int := do
  let digits ← sum (.unsigned 8) left.toNat right.toNat
  sum (.unsigned 8) digits carry.toNat

def skipUnused (digit : Int) : Calculation Int :=
  if 9 < digit then sum (.unsigned 8) digit 6 else return digit

def addDecimal (accumulator operand : Byte) (status : Status) : Calculation Alu.Result := do
  let lowDigits ← digitSum (accumulator &&& 0x0F) (operand &&& 0x0F) status.carry
  let lowNumber ← skipUnused lowDigits
  let highNumber ← digitSum (accumulator >>> 4) (operand >>> 4) (decide (0x0F < lowNumber))
  let binary ← binarySum accumulator operand status.carry
  let movedNumber ← skipUnused highNumber
  let low : Byte := BitVec.ofInt 8 lowNumber
  let high : Byte := BitVec.ofInt 8 highNumber
  let moved : Byte := BitVec.ofInt 8 movedNumber
  let shifted := high <<< 4
  return {
    value := (moved <<< 4) ||| (low &&& 0x0F)
    status :=
      { status with
        zero := Word.low (BitVec.ofInt 16 binary) == 0
        negative := high.getLsbD 3
        overflow := ((accumulator ^^^ shifted) &&& (operand ^^^ shifted)).msb
        carry := decide (0x0F < moved) } }

theorem ofInt_toNat {width : Nat} (word : BitVec width) :
    BitVec.ofInt width (word.toNat : Int) = word := by
  rw [BitVec.ofInt_natCast, BitVec.ofNat_toNat, BitVec.setWidth_eq]

theorem computes_binarySum (accumulator operand : Byte) (carry : Bool) :
    (binarySum accumulator operand carry).Computes
      (.done ((Alu.binarySum accumulator operand carry).toNat : Int)) := by
  have accumulatorBound := accumulator.isLt
  have operandBound := operand.isLt
  have carryBound := carry.toNat_le
  rw [Alu.toNat_binarySum]
  exact .number (.sum (IntegerType.fits_unsigned.mpr (by omega)) rfl)
    (.sum (IntegerType.fits_unsigned.mpr (by omega)) (by omega))

theorem computes_addBinary (accumulator operand : Byte) (status : Status) :
    (addBinary accumulator operand status).Computes
      (.done (Alu.addBinary accumulator operand status)) := by
  refine .number (computes_binarySum accumulator operand status.carry) ?_
  rw [ofInt_toNat]
  exact .done _

theorem computes_digitSum {left right : Byte} (leftDigit : left.toNat < 16)
    (rightDigit : right.toNat < 16) (carry : Bool) :
    (digitSum left right carry).Computes
        (.done ((left + right + Alu.carryByte carry).toNat : Int)) ∧
      (left + right + Alu.carryByte carry).toNat ≤ 31 := by
  have carryBound := carry.toNat_le
  have total : (left + right + Alu.carryByte carry).toNat =
      left.toNat + right.toNat + carry.toNat := by
    rw [BitVec.toNat_add, BitVec.toNat_add, Alu.toNat_carryByte]
    omega
  rw [total]
  refine ⟨.number (.sum (IntegerType.fits_unsigned.mpr ?_) rfl)
    (.sum (IntegerType.fits_unsigned.mpr ?_) ?_), ?_⟩ <;> omega

theorem computes_skipUnused {digit : Byte} (small : digit.toNat ≤ 31) :
    (skipUnused digit.toNat).Computes (.done ((Alu.skipUnused digit).toNat : Int)) := by
  rw [Alu.toNat_skipUnused (by omega), skipUnused]
  by_cases large : 9 < digit.toNat
  · rw [if_pos (by omega), if_pos large]
    exact .sum (IntegerType.fits_unsigned.mpr (by omega)) (by omega)
  · rw [if_neg (by omega), if_neg large]
    exact .done _

theorem toNat_lowDigit_lt (byte : Byte) : (byte &&& 0x0F).toNat < 16 := by
  rw [Alu.toNat_lowDigit]
  exact Nat.mod_lt _ (by decide)

theorem toNat_highDigit_lt (byte : Byte) : (byte >>> 4).toNat < 16 := by
  have bound := byte.isLt
  rw [Alu.toNat_highDigit]
  omega

theorem computes_addDecimal (accumulator operand : Byte) (status : Status) :
    (addDecimal accumulator operand status).Computes
      (.done (Alu.addDecimal accumulator operand status)) := by
  obtain ⟨lowDigits, lowBound⟩ := computes_digitSum (toNat_lowDigit_lt accumulator)
    (toNat_lowDigit_lt operand) status.carry
  obtain ⟨highDigits, highBound⟩ := computes_digitSum (toNat_highDigit_lt accumulator)
    (toNat_highDigit_lt operand)
    (decide (0x0F < Alu.lowDigitSum accumulator operand status.carry))
  have carries : decide (0x0F < ((Alu.lowDigitSum accumulator operand status.carry).toNat : Int)) =
      decide (0x0F < Alu.lowDigitSum accumulator operand status.carry) :=
    decide_eq_decide.mpr Int.ofNat_lt
  refine .number lowDigits (.number (computes_skipUnused lowBound) ?_)
  change Computes (Calculation.bind (digitSum _ _ (decide
    (0x0F < ((Alu.lowDigitSum accumulator operand status.carry).toNat : Int)))) _) _
  rw [carries]
  refine .number highDigits (.number (computes_binarySum accumulator operand status.carry)
    (.number (computes_skipUnused highBound) ?_))
  simp only [ofInt_toNat]
  exact .done _

/-! ## Subtraction -/

def byteDifference (left right : Byte) (borrow : Bool) : Calculation Int := do
  let digits ← difference .signed16 left.toNat right.toNat
  difference .signed16 digits borrow.toNat

def borrowUnused (digit : Int) : Calculation Int :=
  if digit < 0 then difference .signed16 digit 6 else return digit

/-- Takes the borrow of the low digits from the high ones. -/
def lend (digits : Int) (borrow : Bool) : Calculation Int :=
  if borrow then difference .signed16 digits 1 else return digits

def subtractDecimal (accumulator operand : Byte) (status : Status) :
    Calculation Alu.Result := do
  let wholeNumber ← byteDifference accumulator operand (!status.carry)
  let lowDigits ← byteDifference (accumulator &&& 0x0F) (operand &&& 0x0F) (!status.carry)
  let highDigits ← difference .signed16 (accumulator >>> 4).toNat (operand >>> 4).toNat
  let lowNumber ← borrowUnused lowDigits
  let highDigits ← lend highDigits (decide (lowDigits < 0))
  let highNumber ← borrowUnused highDigits
  let binary : Word := BitVec.ofInt 16 wholeNumber
  let low : Word := BitVec.ofInt 16 lowNumber
  let high : Word := BitVec.ofInt 16 highNumber
  return {
    value := (high.low <<< 4) ||| (low.low &&& 0x0F)
    status :=
      { status with
        carry := !binary.msb
        zero := binary.low == 0
        negative := binary.low.msb
        overflow := ((accumulator ^^^ binary.low) &&& (accumulator ^^^ operand)).msb } }

theorem computes_byteDifference (left right : Byte) (borrow : Bool) :
    (byteDifference left right borrow).Computes
      (.done (left.setWidth 16 - right.setWidth 16 - Alu.carryWord borrow : Word).toInt) := by
  have leftBound := left.isLt
  have rightBound := right.isLt
  have borrowBound := borrow.toNat_le
  rw [Alu.toInt_difference]
  exact .number (.difference (IntegerType.fits_signed16.mpr (by omega)) rfl)
    (.difference (IntegerType.fits_signed16.mpr (by omega)) rfl)

theorem toInt_borrowUnused {digit : Word} (atLeast : -16 ≤ digit.toInt) :
    (Alu.borrowUnused digit).toInt =
      if digit.toInt < 0 then digit.toInt - 6 else digit.toInt := by
  rw [Alu.borrowUnused, BitVec.msb_eq_toInt]
  by_cases negative : digit.toInt < 0
  · rw [if_pos (decide_eq_true negative), if_pos negative, BitVec.toInt_sub]
    change Int.bmod (digit.toInt - 6) (2 ^ 16) = _
    exact Int.bmod_eq_of_le (by omega) (by omega)
  · rw [decide_eq_false negative, if_neg Bool.false_ne_true, if_neg negative]

theorem computes_borrowUnused {digit : Word} (atLeast : -16 ≤ digit.toInt) :
    (borrowUnused digit.toInt).Computes (.done (Alu.borrowUnused digit).toInt) := by
  rw [toInt_borrowUnused atLeast, borrowUnused]
  by_cases negative : digit.toInt < 0
  · rw [if_pos negative, if_pos negative]
    exact .difference (IntegerType.fits_signed16.mpr (by omega)) rfl
  · rw [if_neg negative, if_neg negative]
    exact .done _

theorem computes_lend (accumulator operand : Byte) (carry : Bool) :
    (lend ((accumulator >>> 4).toNat - (operand >>> 4).toNat)
        (decide ((Alu.lowDigitDifference accumulator operand carry).toInt < 0))).Computes
      (.done (Alu.highDigitDifference accumulator operand carry).toInt) := by
  have accumulatorDigit := toNat_highDigit_lt accumulator
  have operandDigit := toNat_highDigit_lt operand
  rw [Alu.toInt_highDigitDifference, ← Alu.toNat_highDigit, ← Alu.toNat_highDigit,
    BitVec.msb_eq_toInt, lend]
  cases decide ((Alu.lowDigitDifference accumulator operand carry).toInt < 0) with
  | true =>
      rw [if_pos rfl, Bool.toNat_true]
      exact .difference (IntegerType.fits_signed16.mpr (by omega)) rfl
  | false =>
      rw [if_neg Bool.false_ne_true, Bool.toNat_false, Nat.cast_zero, Int.sub_zero]
      exact .done _

theorem computes_subtractDecimal (accumulator operand : Byte) (status : Status) :
    (subtractDecimal accumulator operand status).Computes
      (.done (Alu.subtractDecimal accumulator operand status)) := by
  have accumulatorDigit := toNat_highDigit_lt accumulator
  have operandDigit := toNat_highDigit_lt operand
  have lowBound : -16 ≤ (Alu.lowDigitDifference accumulator operand status.carry).toInt := by
    have borrowBound := (!status.carry).toNat_le
    rw [Alu.toInt_lowDigitDifference]
    omega
  have highBound : -16 ≤ (Alu.highDigitDifference accumulator operand status.carry).toInt := by
    have lent := (Alu.lowDigitDifference accumulator operand status.carry).msb.toNat_le
    rw [Alu.toInt_highDigitDifference, ← Alu.toNat_highDigit, ← Alu.toNat_highDigit]
    omega
  refine .number (computes_byteDifference accumulator operand (!status.carry))
    (.number (computes_byteDifference _ _ (!status.carry))
    (.number (.difference (IntegerType.fits_signed16.mpr (by omega)) rfl)
    (.number (computes_borrowUnused lowBound)
    (.number (computes_lend accumulator operand status.carry)
    (.number (computes_borrowUnused highBound) ?_)))))
  simp only [BitVec.ofInt_toInt]
  exact .done _

/-! ## The two operations -/

def add (decimal : Bool) (accumulator operand : Byte) (status : Status) :
    Calculation Alu.Result :=
  if decimal then addDecimal accumulator operand status else addBinary accumulator operand status

def subtract (decimal : Bool) (accumulator operand : Byte) (status : Status) :
    Calculation Alu.Result :=
  if decimal then subtractDecimal accumulator operand status
  else addBinary accumulator (~~~operand) status

theorem computes_add (decimal : Bool) (accumulator operand : Byte) (status : Status) :
    (add decimal accumulator operand status).Computes
      (.done (Alu.add decimal accumulator operand status)) := by
  cases decimal with
  | true => exact computes_addDecimal accumulator operand status
  | false => exact computes_addBinary accumulator operand status

theorem computes_subtract (decimal : Bool) (accumulator operand : Byte) (status : Status) :
    (subtract decimal accumulator operand status).Computes
      (.done (Alu.subtract decimal accumulator operand status)) := by
  cases decimal with
  | true => exact computes_subtractDecimal accumulator operand status
  | false => exact computes_addBinary accumulator (~~~operand) status

end Calculation

end Nmos6502
