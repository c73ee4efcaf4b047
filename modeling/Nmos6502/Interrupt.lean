import Nmos6502.Word

/-!
# Interrupt requests

A rising edge on the NMI line leaves one request in a latch, which taking the
interrupt clears; edges that arrive before that are merged with it.  The IRQ line
holds no memory: it requests an interrupt as long as it is asserted, and only
while interrupts are enabled.  A pending NMI goes first.
-/

set_option autoImplicit false

namespace Nmos6502

/-- The events that make the processor continue at a vector. -/
inductive Interrupt where
  | nmi
  | reset
  | irq
  | brk
  deriving DecidableEq, Repr

namespace Interrupt

def all : List Interrupt := [nmi, reset, irq, brk]

def vector : Interrupt → Word
  | nmi => 0xFFFA
  | reset => 0xFFFC
  | irq => 0xFFFE
  | brk => 0xFFFE

def name : Interrupt → String
  | nmi => "Nmi"
  | reset => "Reset"
  | irq => "Irq"
  | brk => "Break"

end Interrupt

/-- The levels of the two lines, as last set, and the latch of the first. -/
structure InterruptLines where
  nmiLine : Bool := false
  nmiPending : Bool := false
  irqLine : Bool := false
  deriving DecidableEq, Repr

namespace InterruptLines

/-- Drives the NMI line; going from released to asserted latches a request. -/
def setNmiLine (lines : InterruptLines) (asserted : Bool) : InterruptLines :=
  { lines with
    nmiLine := asserted
    nmiPending := lines.nmiPending || (asserted && !lines.nmiLine) }

def triggerNmi (lines : InterruptLines) : InterruptLines :=
  { lines with nmiPending := true }

def setIrqLine (lines : InterruptLines) (asserted : Bool) : InterruptLines :=
  { lines with irqLine := asserted }

/-- The interrupt to take before the next instruction, if any, and the lines
after it is taken. -/
def poll (lines : InterruptLines) (irqDisable : Bool) : Option Interrupt × InterruptLines :=
  if lines.nmiPending then (some .nmi, { lines with nmiPending := false })
  else if lines.irqLine && !irqDisable then (some .irq, lines)
  else (none, lines)

/-- Drops the latched request and releases the IRQ line.  The level of the NMI
line stays known, so that a line held through a reset raises no new request. -/
def clear (lines : InterruptLines) : InterruptLines :=
  { lines with nmiPending := false, irqLine := false }

theorem poll_of_pending {lines : InterruptLines} (irqDisable : Bool)
    (pending : lines.nmiPending = true) :
    lines.poll irqDisable = (some .nmi, { lines with nmiPending := false }) := by
  simp [poll, pending]

theorem poll_eq_none_iff {lines : InterruptLines} {irqDisable : Bool} :
    (lines.poll irqDisable).1 = none ↔
      lines.nmiPending = false ∧ (lines.irqLine = false ∨ irqDisable = true) := by
  rcases lines with ⟨_, pending, irq⟩
  cases pending <;> cases irq <;> cases irqDisable <;> simp [poll]

end InterruptLines

end Nmos6502
