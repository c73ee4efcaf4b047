import Nmos6502.Word

/-!
# The status register

Six flags are live.  The two other bits of the status byte are not stored: the
unused bit reads as one, and the break bit exists only in the copies that are
written to the stack, where it tells a software break from a hardware
interrupt.  Reading a status byte back therefore forgets those two bits and
nothing else: `ofBits_bits` and `ofBits_pushed` recover the flags from every
written form, and `bits_ofBits` says which byte a pulled one becomes.
-/

set_option autoImplicit false

namespace Nmos6502

/-- The eight bits of the status byte, least significant first. -/
inductive Flag where
  | carry
  | zero
  | irqDisable
  | decimal
  | brk
  | unused
  | overflow
  | negative
  deriving DecidableEq, Repr

namespace Flag

def all : List Flag :=
  [carry, zero, irqDisable, decimal, brk, unused, overflow, negative]

def position : Flag → Nat
  | carry => 0
  | zero => 1
  | irqDisable => 2
  | decimal => 3
  | brk => 4
  | unused => 5
  | overflow => 6
  | negative => 7

def name : Flag → String
  | carry => "Carry"
  | zero => "Zero"
  | irqDisable => "IrqDisable"
  | decimal => "Decimal"
  | brk => "Break"
  | unused => "Unused"
  | overflow => "Overflow"
  | negative => "Negative"

end Flag

structure Status where
  carry : Bool := false
  zero : Bool := false
  irqDisable : Bool := false
  decimal : Bool := false
  overflow : Bool := false
  negative : Bool := false
  deriving DecidableEq, Repr

namespace Status

/-- The status byte with the given break bit, most significant bit first. -/
def toByte (status : Status) (brk : Bool) : Byte :=
  BitVec.ofBoolListBE
    [status.negative, status.overflow, true, brk,
      status.decimal, status.irqDisable, status.zero, status.carry]

/-- The status byte as a program can observe it: the unused bit is one and the
break bit is zero. -/
def bits (status : Status) : Byte := status.toByte false

/-- The copy that goes to the stack; the break bit is set for a software break
and for a pushed status, and clear for a hardware interrupt. -/
def pushed (status : Status) (brk : Bool) : Byte := status.toByte brk

/-- The live flags held in a status byte; its break and unused bits are
dropped. -/
def ofBits (byte : Byte) : Status where
  carry := byte.getLsbD 0
  zero := byte.getLsbD 1
  irqDisable := byte.getLsbD 2
  decimal := byte.getLsbD 3
  overflow := byte.getLsbD 6
  negative := byte.getLsbD 7

@[simp] theorem ofBits_toByte (status : Status) (brk : Bool) :
    ofBits (status.toByte brk) = status := by
  rcases status with ⟨_ | _, _ | _, _ | _, _ | _, _ | _, _ | _⟩ <;> cases brk <;> rfl

@[simp] theorem ofBits_bits (status : Status) : ofBits status.bits = status :=
  ofBits_toByte status false

@[simp] theorem ofBits_pushed (status : Status) (brk : Bool) :
    ofBits (status.pushed brk) = status :=
  ofBits_toByte status brk

theorem getLsbD_toByte (status : Status) (brk : Bool) :
    (status.toByte brk).getLsbD 0 = status.carry ∧ (status.toByte brk).getLsbD 1 = status.zero ∧
      (status.toByte brk).getLsbD 2 = status.irqDisable ∧ (status.toByte brk).getLsbD 3 = status.decimal ∧
      (status.toByte brk).getLsbD 4 = brk ∧ (status.toByte brk).getLsbD 5 = true ∧
      (status.toByte brk).getLsbD 6 = status.overflow ∧ (status.toByte brk).getLsbD 7 = status.negative := by
  rcases status with ⟨_ | _, _ | _, _ | _, _ | _, _ | _, _ | _⟩ <;> cases brk <;> decide

/-- A pulled byte becomes itself with the unused bit set and the break bit
clear. -/
theorem bits_ofBits (byte : Byte) : (ofBits byte).bits = (byte ||| 0x20) &&& 0xEF := by
  revert byte
  decide

/-! ## Single flags -/

def get (status : Status) : Flag → Bool
  | .carry => status.carry
  | .zero => status.zero
  | .irqDisable => status.irqDisable
  | .decimal => status.decimal
  | .brk => false
  | .unused => true
  | .overflow => status.overflow
  | .negative => status.negative

/-- Sets a live flag; the break and unused bits cannot be changed. -/
def set (status : Status) (flag : Flag) (value : Bool) : Status :=
  match flag with
  | .carry => { status with carry := value }
  | .zero => { status with zero := value }
  | .irqDisable => { status with irqDisable := value }
  | .decimal => { status with decimal := value }
  | .overflow => { status with overflow := value }
  | .negative => { status with negative := value }
  | .brk | .unused => status

theorem get_eq_getLsbD (status : Status) (flag : Flag) :
    status.get flag = status.bits.getLsbD flag.position := by
  rcases status with ⟨_ | _, _ | _, _ | _, _ | _, _ | _, _ | _⟩ <;> cases flag <;> rfl

theorem get_set_of_ne (status : Status) {flag other : Flag} (value : Bool)
    (different : other ≠ flag) : (status.set flag value).get other = status.get other := by
  cases flag <;> cases other <;> simp_all [get, set]

/-! ## Flags left by an operation -/

def describing (status : Status) (value : Byte) : Status :=
  { status with zero := value == 0, negative := value.msb }

/-- The flags of a binary addition whose nine-bit sum is given.  Overflow means
that both terms have a sign which the low byte of the sum has not. -/
def afterSum (status : Status) (accumulator operand : Byte) (sum : Word) : Status :=
  let result := sum.low
  { status.describing result with
    carry := decide (0xFF < sum)
    overflow := ((accumulator ^^^ result) &&& (operand ^^^ result)).msb }

/-- The flags of a comparison: carry is set when the register is not below the
operand, and the rest describes the difference. -/
def afterCompare (status : Status) (register operand : Byte) : Status :=
  { status.describing (register - operand) with carry := decide (operand ≤ register) }

def afterShift (status : Status) (result : Byte) (shiftedOut : Bool) : Status :=
  { status.describing result with carry := shiftedOut }

def afterBitTest (status : Status) (accumulator operand : Byte) : Status :=
  { status with
    zero := accumulator &&& operand == 0
    overflow := operand.getLsbD 6
    negative := operand.getLsbD 7 }

end Status

end Nmos6502
