import Nmos6502.Proofs.Alu.Binary
import Nmos6502.Proofs.Alu.Decimal

/-!
# Decimal arithmetic on any bytes

Decimal arithmetic does not ask whether the halves of its bytes are decimal digits, and it has a
law for all bytes alike.  In an addition the low halves make a total of their own, which jumps
past the six unused codes to the next sixteen once it is ten (`lowTotal`).  With the high parts
it makes the total that negative and overflow describe (`digitTotal`), and this total is moved in
its turn (`movedTotal`) before it is cut to a byte.  Subtraction goes the same way downward
(`lowRemainder`, `digitRemainder`, `movedRemainder`), but its flags are those of the binary
difference.

The sums that are computed half by half are these totals, in base sixteen
(`digitTotal_eq`, `movedTotal_eq`, `digitRemainder_eq`).
-/

set_option autoImplicit false

namespace Nmos6502

namespace Alu

theorem toNat_highPart (byte : Byte) : (byte &&& 0xF0).toNat = 16 * (byte.toNat / 16) := by
  revert byte
  decide +kernel

theorem toInt_highPart (byte : Byte) :
    (byte &&& 0xF0).toInt = (byte &&& 0xF0).toNat - 256 * byte.msb.toNat := by
  have bound := byte.isLt
  rw [BitVec.toInt_eq_toNat_cond, toNat_highPart, BitVec.msb_eq_decide]
  by_cases negative : 128 ≤ byte.toNat
  · rw [decide_eq_true negative, Bool.toNat_true, if_neg (by omega)]
    rfl
  · rw [decide_eq_false negative, Bool.toNat_false, if_pos (by omega)]
    omega

theorem representable_one {value : Int} : Representable 1 value ↔ -128 ≤ value ∧ value ≤ 127 := by
  unfold Representable
  omega

/-! ## Addition -/

/-- The total of the low halves, past the unused codes. -/
def lowTotal (accumulator operand : Byte) (carry : Bool) : Nat :=
  let total := accumulator.toNat % 16 + operand.toNat % 16 + carry.toNat
  if 10 ≤ total then (total + 6) % 16 + 16 else total

def digitTotal (accumulator operand : Byte) (carry : Bool) : Nat :=
  (accumulator &&& 0xF0).toNat + (operand &&& 0xF0).toNat + lowTotal accumulator operand carry

def movedTotal (accumulator operand : Byte) (carry : Bool) : Nat :=
  let total := digitTotal accumulator operand carry
  if 0xA0 ≤ total then total + 0x60 else total

section

variable (accumulator operand : Byte) (carry : Bool)

theorem toNat_lowDigitSum :
    (lowDigitSum accumulator operand carry).toNat =
      let total := accumulator.toNat % 16 + operand.toNat % 16 + carry.toNat
      if 10 ≤ total then total + 6 else total := by
  have carryBound := carry.toNat_le
  have total : ((accumulator &&& 0x0F) + (operand &&& 0x0F) + carryByte carry).toNat =
      accumulator.toNat % 16 + operand.toNat % 16 + carry.toNat := by
    rw [BitVec.toNat_add, BitVec.toNat_add, toNat_lowDigit, toNat_lowDigit, toNat_carryByte]
    omega
  rw [lowDigitSum, toNat_skipUnused (by omega), total]
  rfl

theorem lowTotal_eq :
    lowTotal accumulator operand carry =
      16 * (decide (0x0F < lowDigitSum accumulator operand carry)).toNat +
        (lowDigitSum accumulator operand carry).toNat % 16 := by
  have sum := toNat_lowDigitSum accumulator operand carry
  have carries : 0x0F < lowDigitSum accumulator operand carry ↔
      15 < (lowDigitSum accumulator operand carry).toNat := Iff.rfl
  dsimp only at sum
  unfold lowTotal
  by_cases large : 10 ≤ accumulator.toNat % 16 + operand.toNat % 16 + carry.toNat
  · rw [if_pos large] at sum
    rw [if_pos large, decide_eq_true (carries.mpr (by omega)), Bool.toNat_true, sum]
    omega
  · rw [if_neg large] at sum
    rw [if_neg large, decide_eq_false (mt carries.mp (by omega)), Bool.toNat_false, sum]
    omega

theorem toNat_highDigitSum :
    (highDigitSum accumulator operand carry).toNat =
      accumulator.toNat / 16 + operand.toNat / 16 +
        (decide (0x0F < lowDigitSum accumulator operand carry)).toNat := by
  have accumulatorBound := accumulator.isLt
  have operandBound := operand.isLt
  have carryBound := (decide (0x0F < lowDigitSum accumulator operand carry)).toNat_le
  rw [highDigitSum, BitVec.toNat_add, BitVec.toNat_add, toNat_highDigit, toNat_highDigit,
    toNat_carryByte]
  omega

theorem digitTotal_eq :
    digitTotal accumulator operand carry =
      16 * (highDigitSum accumulator operand carry).toNat +
        (lowDigitSum accumulator operand carry).toNat % 16 := by
  rw [digitTotal, toNat_highPart, toNat_highPart, lowTotal_eq, toNat_highDigitSum]
  omega

theorem movedTotal_eq :
    movedTotal accumulator operand carry =
      16 * (skipUnused (highDigitSum accumulator operand carry)).toNat +
        (lowDigitSum accumulator operand carry).toNat % 16 := by
  have accumulatorBound := accumulator.isLt
  have operandBound := operand.isLt
  have carryBound := (decide (0x0F < lowDigitSum accumulator operand carry)).toNat_le
  have high := toNat_highDigitSum accumulator operand carry
  rw [movedTotal, digitTotal_eq, toNat_skipUnused (by omega)]
  by_cases large : 9 < (highDigitSum accumulator operand carry).toNat
  · rw [if_pos large, if_pos (by omega)]
    omega
  · rw [if_neg large, if_neg (by omega)]

end

section

variable (accumulator operand : Byte) (status : Status)

theorem toNat_value_addDecimal :
    (addDecimal accumulator operand status).value.toNat =
      movedTotal accumulator operand status.carry % 256 := by
  have value : (addDecimal accumulator operand status).value.toNat =
      16 * ((skipUnused (highDigitSum accumulator operand status.carry)).toNat % 16) +
        (lowDigitSum accumulator operand status.carry).toNat % 16 := toNat_joined _ _
  rw [value, movedTotal_eq]
  omega

theorem carry_addDecimal :
    (addDecimal accumulator operand status).status.carry = true ↔
      256 ≤ movedTotal accumulator operand status.carry := by
  have carries : (addDecimal accumulator operand status).status.carry = true ↔
      15 < (skipUnused (highDigitSum accumulator operand status.carry)).toNat :=
    decide_eq_true_iff
  rw [carries, movedTotal_eq]
  omega

theorem zero_addDecimal :
    (addDecimal accumulator operand status).status.zero = true ↔
      (accumulator.toNat + operand.toNat + status.carry.toNat) % 256 = 0 := by
  have zero : (addDecimal accumulator operand status).status.zero = true ↔
      (binarySum accumulator operand status.carry).low = 0 := beq_iff_eq
  rw [zero, ← toNat_binarySum, ← Word.toNat_low]
  exact BitVec.toNat_inj.symm

theorem negative_addDecimal :
    (addDecimal accumulator operand status).status.negative =
      (digitTotal accumulator operand status.carry).testBit 7 := by
  have digit : (lowDigitSum accumulator operand status.carry).toNat % 16 < 2 ^ 4 :=
    Nat.mod_lt _ (by decide)
  rw [digitTotal_eq]
  exact (Nat.testBit_two_pow_mul_add _ digit 7).symm

theorem overflow_addDecimal :
    (addDecimal accumulator operand status).status.overflow = true ↔
      ¬ Representable 1 ((accumulator &&& 0xF0).toInt + (operand &&& 0xF0).toInt +
        lowTotal accumulator operand status.carry) := by
  have sign : (highDigitSum accumulator operand status.carry <<< 4).msb =
      (addDecimal accumulator operand status).status.negative := by
    rw [BitVec.msb_shiftLeft]
    rfl
  have signs : (addDecimal accumulator operand status).status.overflow =
      ((accumulator.msb ^^ (addDecimal accumulator operand status).status.negative) &&
        (operand.msb ^^ (addDecimal accumulator operand status).status.negative)) := by
    rw [← sign, ← BitVec.msb_xor, ← BitVec.msb_xor, ← BitVec.msb_and]
    rfl
  have accumulatorBound := accumulator.isLt
  have operandBound := operand.isLt
  have lowBound : lowTotal accumulator operand status.carry ≤ 31 := by
    have carryBound := status.carry.toNat_le
    unfold lowTotal
    grind
  rw [signs, negative_addDecimal, Nat.testBit_eq_decide_div_mod_eq, toInt_highPart, toInt_highPart,
    digitTotal, toNat_highPart, toNat_highPart, BitVec.msb_eq_decide, BitVec.msb_eq_decide,
    Representable]
  generalize lowTotal accumulator operand status.carry = low at lowBound ⊢
  -- The signs of the two terms bound the total on one side, and its own sign on the other.
  by_cases first : 128 ≤ accumulator.toNat <;> by_cases second : 128 ≤ operand.toNat <;>
    simp only [first, second] <;> grind

end

/-! ## Subtraction -/

/-- The difference of the low halves, back over the unused codes. -/
def lowRemainder (accumulator operand : Byte) (carry : Bool) : Int :=
  let difference : Int :=
    (accumulator.toNat % 16 : Nat) - (operand.toNat % 16 : Nat) + carry.toNat - 1
  if difference < 0 then (difference - 6) % 16 - 16 else difference

def digitRemainder (accumulator operand : Byte) (carry : Bool) : Int :=
  (accumulator &&& 0xF0).toNat - (operand &&& 0xF0).toNat + lowRemainder accumulator operand carry

def movedRemainder (accumulator operand : Byte) (carry : Bool) : Int :=
  let difference := digitRemainder accumulator operand carry
  if difference < 0 then difference - 0x60 else difference

theorem toNat_low_borrowUnused (digit : Word) :
    ((borrowUnused digit).low.toNat % 16 : Nat) =
      (if digit.toInt < 0 then digit.toInt - 6 else digit.toInt) % 16 := by
  have bound := digit.isLt
  have signed := digit.toInt_eq_toNat_cond
  rw [borrowUnused, BitVec.msb_eq_toInt, Word.toNat_low]
  by_cases negative : digit.toInt < 0
  · have moved : (digit - 6).toNat = digit.toNat - 6 := by
      rw [BitVec.toNat_sub]
      change (2 ^ 16 - 6 + digit.toNat) % 2 ^ 16 = _
      omega
    rw [if_pos (decide_eq_true negative), if_pos negative, moved]
    omega
  · rw [decide_eq_false negative, if_neg Bool.false_ne_true, if_neg negative]
    omega

section

variable (accumulator operand : Byte) (carry : Bool)

theorem lowRemainder_eq :
    lowRemainder accumulator operand carry =
      ((borrowUnused (lowDigitDifference accumulator operand carry)).low.toNat % 16 : Nat) -
        16 * ((lowDigitDifference accumulator operand carry).msb.toNat : Int) := by
  have borrow : ((!carry).toNat : Int) = 1 - carry.toNat := by cases carry <;> rfl
  have carryBound := carry.toNat_le
  have difference : (lowDigitDifference accumulator operand carry).toInt =
      (accumulator.toNat % 16 : Nat) - (operand.toNat % 16 : Nat) + carry.toNat - 1 := by
    rw [toInt_lowDigitDifference]
    omega
  rw [lowRemainder, toNat_low_borrowUnused, BitVec.msb_eq_toInt, ← difference]
  by_cases negative : (lowDigitDifference accumulator operand carry).toInt < 0
  · rw [if_pos negative, if_pos negative, decide_eq_true negative, Bool.toNat_true]
    rfl
  · rw [if_neg negative, if_neg negative, decide_eq_false negative, Bool.toNat_false]
    omega

theorem digitRemainder_eq :
    digitRemainder accumulator operand carry =
      16 * (highDigitDifference accumulator operand carry).toInt +
        ((borrowUnused (lowDigitDifference accumulator operand carry)).low.toNat % 16 : Nat) := by
  rw [digitRemainder, toNat_highPart, toNat_highPart, lowRemainder_eq, toInt_highDigitDifference]
  omega

theorem movedRemainder_emod :
    movedRemainder accumulator operand carry % 256 =
      16 * ((borrowUnused (highDigitDifference accumulator operand carry)).low.toNat % 16 : Nat) +
        ((borrowUnused (lowDigitDifference accumulator operand carry)).low.toNat % 16 : Nat) := by
  rw [movedRemainder, digitRemainder_eq,
    toNat_low_borrowUnused (highDigitDifference accumulator operand carry)]
  by_cases negative : (highDigitDifference accumulator operand carry).toInt < 0
  · rw [if_pos negative, if_pos (by omega)]
    omega
  · rw [if_neg negative, if_neg (by omega)]
    omega

end

theorem toNat_value_subtractDecimal (accumulator operand : Byte) (status : Status) :
    ((subtractDecimal accumulator operand status).value.toNat : Int) =
      movedRemainder accumulator operand status.carry % 256 := by
  rw [movedRemainder_emod]
  exact congrArg Nat.cast (toNat_joined _ _)

theorem low_binaryDifference (accumulator operand : Byte) (carry : Bool) :
    (binaryDifference accumulator operand carry).low =
      (binarySum accumulator (~~~operand) carry).low := by
  have difference := toInt_binaryDifference accumulator operand carry
  have signed := (binaryDifference accumulator operand carry).toInt_eq_toNat_cond
  have operandBound := operand.isLt
  have borrow : ((!carry).toNat : Int) = 1 - carry.toNat := by cases carry <;> rfl
  apply BitVec.eq_of_toNat_eq
  rw [Word.toNat_low, Word.toNat_low, toNat_binarySum, BitVec.toNat_not]
  omega

theorem msb_binaryDifference_eq (accumulator operand : Byte) (carry : Bool) :
    (!(binaryDifference accumulator operand carry).msb) =
      decide (0xFF < binarySum accumulator (~~~operand) carry) := by
  have difference := toInt_binaryDifference accumulator operand carry
  have carries : 0xFF < binarySum accumulator (~~~operand) carry ↔
      255 < (binarySum accumulator (~~~operand) carry).toNat := Iff.rfl
  have operandBound := operand.isLt
  have borrow : ((!carry).toNat : Int) = 1 - carry.toNat := by cases carry <;> rfl
  rw [BitVec.msb_eq_toInt, ← decide_not, decide_eq_decide, carries, toNat_binarySum,
    BitVec.toNat_not, difference]
  omega

/-- The flags of a decimal subtraction are those of the binary one. -/
theorem status_subtractDecimal (accumulator operand : Byte) (status : Status) :
    (subtractDecimal accumulator operand status).status =
      (addBinary accumulator (~~~operand) status).status := by
  have signs (result : Byte) : ((accumulator ^^^ result) &&& (accumulator ^^^ operand)).msb =
      ((accumulator ^^^ result) &&& (~~~operand ^^^ result)).msb := by
    simp only [BitVec.msb_and, BitVec.msb_xor, BitVec.msb_not]
    cases accumulator.msb <;> cases operand.msb <;> cases result.msb <;> rfl
  simp only [subtractDecimal, addBinary, Status.afterSum, Status.describing, low_binaryDifference,
    msb_binaryDifference_eq, signs]

theorem status_subtraction (decimal : Bool) (terms : Terms) (status : Status) :
    (Operation.subtraction.apply decimal terms status).status =
      (addBinary terms.accumulator (~~~terms.operand) status).status := by
  cases decimal with
  | false => rfl
  | true => exact status_subtractDecimal terms.accumulator terms.operand status

theorem get_addBinary_congr (accumulator operand : Byte) {first second : Status}
    (same : first.carry = second.carry) {flag : Flag}
    (changed : flag ∈ [Flag.negative, .overflow, .zero, .carry]) :
    (addBinary accumulator operand first).status.get flag =
      (addBinary accumulator operand second).status.get flag := by
  simp only [addBinary, same]
  cases flag with
  | negative | overflow | zero | carry => rfl
  | irqDisable | decimal | brk | unused => simp at changed

end Alu

end Nmos6502
