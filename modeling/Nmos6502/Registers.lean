import Nmos6502.Status

/-!
# The register file

Accumulator, two index registers and the stack pointer hold a byte each, the
program counter a word.  The stack lives in page one, and its pointer wraps
inside that page.
-/

set_option autoImplicit false

namespace Nmos6502

inductive Register where
  | a
  | x
  | y
  | sp
  deriving DecidableEq, Repr

structure Registers where
  a : Byte := 0
  x : Byte := 0
  y : Byte := 0
  sp : Byte := 0
  pc : Word := 0
  status : Status := {}
  deriving DecidableEq, Repr

namespace Registers

def stackCell (pointer : Byte) : Word := Word.ofBytes 0x01 pointer

def stackAddress (registers : Registers) : Word := stackCell registers.sp

def advance (registers : Registers) (count : Word) : Registers :=
  { registers with pc := registers.pc + count }

def get (registers : Registers) : Register → Byte
  | .a => registers.a
  | .x => registers.x
  | .y => registers.y
  | .sp => registers.sp

def set (registers : Registers) (register : Register) (value : Byte) : Registers :=
  match register with
  | .a => { registers with a := value }
  | .x => { registers with x := value }
  | .y => { registers with y := value }
  | .sp => { registers with sp := value }

/-- Puts a value into a register and describes it in zero and negative. -/
def put (registers : Registers) (register : Register) (value : Byte) : Registers :=
  { registers.set register value with status := registers.status.describing value }

theorem stackCell_injective {first second : Byte} :
    stackCell first = stackCell second ↔ first = second := by
  simp [stackCell, Word.ofBytes_inj]

@[simp] theorem get_set_self (registers : Registers) (register : Register) (value : Byte) :
    (registers.set register value).get register = value := by
  cases register <;> rfl

theorem get_set_of_ne (registers : Registers) {register other : Register} (value : Byte)
    (different : other ≠ register) :
    (registers.set register value).get other = registers.get other := by
  cases register <;> cases other <;> simp_all [get, set]

end Registers

end Nmos6502
