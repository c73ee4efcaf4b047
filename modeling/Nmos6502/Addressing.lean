import Nmos6502.Registers
import Nmos6502.Bus.Program

/-!
# Addressing modes

An instruction names its operand in one of thirteen modes.  Resolving a mode
reads the operand bytes and, for the indirect modes, a pointer; the result is the
effective address, if the mode has one, and whether indexing or branching left
the page it started from.

Two wraps are part of the rules.  Zero-page sums and zero-page pointers stay in
page zero, and the pointer of an indirect jump does not leave its page: its high
byte comes from the start of the page when its low byte is the last of it.
-/

set_option autoImplicit false

namespace Nmos6502

inductive Mode where
  | implied
  | accumulator
  | immediate
  | zeroPage
  | zeroPageX
  | zeroPageY
  | absolute
  | absoluteX
  | absoluteY
  | indirect
  | indirectX
  | indirectY
  | relative
  deriving DecidableEq, Repr

namespace Mode

def all : List Mode :=
  [implied, accumulator, immediate, zeroPage, zeroPageX, zeroPageY, absolute, absoluteX,
    absoluteY, indirect, indirectX, indirectY, relative]

def name : Mode → String
  | implied => "Implied"
  | accumulator => "Accumulator"
  | immediate => "Immediate"
  | zeroPage => "ZeroPage"
  | zeroPageX => "ZeroPageX"
  | zeroPageY => "ZeroPageY"
  | absolute => "Absolute"
  | absoluteX => "AbsoluteX"
  | absoluteY => "AbsoluteY"
  | indirect => "Indirect"
  | indirectX => "IndirectX"
  | indirectY => "IndirectY"
  | relative => "Relative"

def operandLength : Mode → Nat
  | implied | accumulator => 0
  | immediate | zeroPage | zeroPageX | zeroPageY | indirectX | indirectY | relative => 1
  | absolute | absoluteX | absoluteY | indirect => 2

end Mode

/-- A resolved operand.  Without an address the operand is the accumulator, or
there is none. -/
structure Operand where
  address : Option Word
  pageCrossed : Bool
  deriving DecidableEq, Repr

namespace Operand

def none : Operand where
  address := Option.none
  pageCrossed := false

def cell (address : Word) : Operand where
  address := some address
  pageCrossed := false

/-- Whether adding the index to the offset of the base leaves its page. -/
def crosses (base : Word) (index : Byte) : Bool :=
  decide (0xFF < base.low.setWidth 16 + (index.setWidth 16 : Word))

def indexed (base : Word) (index : Byte) : Operand where
  address := some (base + index.setWidth 16)
  pageCrossed := crosses base index

def branchTarget (next : Word) (displacement : Byte) : Operand where
  address := some (next + displacement.signExtend 16)
  pageCrossed := next.high != (next + displacement.signExtend 16).high

theorem crosses_iff (base : Word) (index : Byte) :
    crosses base index = true ↔ 0xFF < base.toNat % 256 + index.toNat := by
  have baseBound := base.low.isLt
  have indexBound := index.isLt
  rw [← Word.toNat_low, crosses, decide_eq_true_eq, BitVec.lt_def, BitVec.toNat_add,
    BitVec.toNat_setWidth, BitVec.toNat_setWidth,
    show (0xFF : Word).toNat = 0xFF from rfl]
  omega

end Operand

namespace Addressing

open Program

/-- The word whose address is given, read without leaving the page of that
address. -/
def indirect (pointer : Word) : Program Word :=
  readSplit pointer (Word.ofBytes pointer.high (pointer + 1).low)

/-- The word at a cell of the zero page, read without leaving that page. -/
def zeroPagePointer (pointer : Byte) : Program Word :=
  readSplit (Word.zeroPage pointer) (Word.zeroPage (pointer + 1))

/-- Finds the operand of an instruction in the given mode.  The program counter
is at the first operand byte. -/
def resolve (mode : Mode) (registers : Registers) : Program Operand :=
  let pc := registers.pc
  match mode with
  | .implied | .accumulator => return .none
  | .immediate => return .cell pc
  | .zeroPage => do
      let base ← readByte pc
      return .cell (Word.zeroPage base)
  | .zeroPageX => do
      let base ← readByte pc
      return .cell (Word.zeroPage (base + registers.x))
  | .zeroPageY => do
      let base ← readByte pc
      return .cell (Word.zeroPage (base + registers.y))
  | .absolute => do
      let address ← readWord pc
      return .cell address
  | .absoluteX => do
      let base ← readWord pc
      return .indexed base registers.x
  | .absoluteY => do
      let base ← readWord pc
      return .indexed base registers.y
  | .indirect => do
      let pointer ← readWord pc
      let address ← indirect pointer
      return .cell address
  | .indirectX => do
      let base ← readByte pc
      let address ← zeroPagePointer (base + registers.x)
      return .cell address
  | .indirectY => do
      let pointer ← readByte pc
      let base ← zeroPagePointer pointer
      return .indexed base registers.y
  | .relative => do
      let displacement ← readByte pc
      return .branchTarget (pc + 1) displacement

end Addressing

end Nmos6502
