import Nmos6502.Status

/-!
# Addition and subtraction with carry

Binary addition is done in sixteen bits, so that the carry out of a byte can be
seen; binary subtraction adds the complement.  Decimal arithmetic works on the
two digits of a byte: a digit sum above nine is moved past the six codes that no
digit uses, and a digit difference below zero is moved back over them.

The flags of decimal addition come from three different moments.  Zero describes
the binary sum, negative and overflow the high digit before it is moved, and carry
the high digit after that.  The flags of decimal subtraction are those of the
binary difference.
-/

set_option autoImplicit false

namespace Nmos6502

namespace Alu

def carryByte (carry : Bool) : Byte := (BitVec.ofBool carry).setWidth 8

def carryWord (carry : Bool) : Word := (BitVec.ofBool carry).setWidth 16

@[simp] theorem toNat_carryByte (carry : Bool) : (carryByte carry).toNat = carry.toNat := by
  cases carry <;> rfl

@[simp] theorem toNat_carryWord (carry : Bool) : (carryWord carry).toNat = carry.toNat := by
  cases carry <;> rfl

structure Result where
  value : Byte
  status : Status
  deriving DecidableEq, Repr

/-! ## Binary -/

def binarySum (accumulator operand : Byte) (carry : Bool) : Word :=
  accumulator.setWidth 16 + operand.setWidth 16 + carryWord carry

theorem toNat_binarySum (accumulator operand : Byte) (carry : Bool) :
    (binarySum accumulator operand carry).toNat =
      accumulator.toNat + operand.toNat + carry.toNat := by
  have accumulatorBound := accumulator.isLt
  have operandBound := operand.isLt
  have carryBound := carry.toNat_le
  simp only [binarySum, BitVec.toNat_add, BitVec.toNat_setWidth, toNat_carryWord]
  omega

def addBinary (accumulator operand : Byte) (status : Status) : Result :=
  let sum := binarySum accumulator operand status.carry
  { value := sum.low, status := status.afterSum accumulator operand sum }

/-! ## Decimal -/

/-- Moves a digit sum above nine past the six codes that no digit uses. -/
def skipUnused (digit : Byte) : Byte := if 9 < digit then digit + 6 else digit

def lowDigitSum (accumulator operand : Byte) (carry : Bool) : Byte :=
  skipUnused ((accumulator &&& 0x0F) + (operand &&& 0x0F) + carryByte carry)

def highDigitSum (accumulator operand : Byte) (carry : Bool) : Byte :=
  (accumulator >>> 4) + (operand >>> 4)
    + carryByte (decide (0x0F < lowDigitSum accumulator operand carry))

def addDecimal (accumulator operand : Byte) (status : Status) : Result :=
  let low := lowDigitSum accumulator operand status.carry
  let high := highDigitSum accumulator operand status.carry
  let shifted := high <<< 4
  let moved := skipUnused high
  { value := (moved <<< 4) ||| (low &&& 0x0F)
    status :=
      { status with
        zero := (binarySum accumulator operand status.carry).low == 0
        negative := high.getLsbD 3
        overflow := ((accumulator ^^^ shifted) &&& (operand ^^^ shifted)).msb
        carry := decide (0x0F < moved) } }

def binaryDifference (accumulator operand : Byte) (carry : Bool) : Word :=
  accumulator.setWidth 16 - operand.setWidth 16 - carryWord (!carry)

/-- Moves a digit difference below zero back over the six unused codes. -/
def borrowUnused (digit : Word) : Word := if digit.msb then digit - 6 else digit

def lowDigitDifference (accumulator operand : Byte) (carry : Bool) : Word :=
  (accumulator &&& 0x0F).setWidth 16 - (operand &&& 0x0F).setWidth 16 - carryWord (!carry)

def highDigitDifference (accumulator operand : Byte) (carry : Bool) : Word :=
  (accumulator >>> 4).setWidth 16 - (operand >>> 4).setWidth 16
    - carryWord (lowDigitDifference accumulator operand carry).msb

def subtractDecimal (accumulator operand : Byte) (status : Status) : Result :=
  let binary := binaryDifference accumulator operand status.carry
  let low := borrowUnused (lowDigitDifference accumulator operand status.carry)
  let high := borrowUnused (highDigitDifference accumulator operand status.carry)
  { value := (high.low <<< 4) ||| (low.low &&& 0x0F)
    status :=
      { status with
        carry := !binary.msb
        zero := binary.low == 0
        negative := binary.low.msb
        overflow := ((accumulator ^^^ binary.low) &&& (accumulator ^^^ operand)).msb } }

/-! ## The two operations -/

def add (decimal : Bool) (accumulator operand : Byte) (status : Status) : Result :=
  if decimal then addDecimal accumulator operand status
  else addBinary accumulator operand status

/-- Subtracts operand and borrow, the borrow being the complement of the carry;
`decimal` chooses decimal arithmetic. -/
def subtract (decimal : Bool) (accumulator operand : Byte) (status : Status) : Result :=
  if decimal then subtractDecimal accumulator operand status
  else addBinary accumulator (~~~operand) status

end Alu

end Nmos6502
