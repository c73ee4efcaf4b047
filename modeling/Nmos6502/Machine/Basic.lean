import Nmos6502.Cpu

/-!
# The machine

A processor with its bus.  The host may do to it what a board does: drive the
interrupt lines, reset it, let it take a step, move bytes over its stack, and ask it
to stop.  A refused step leaves the processor as it was; only the bus may have
noticed the fetch.
-/

set_option autoImplicit false

namespace Nmos6502

structure Machine (World : Type) where
  cpu : Cpu
  bus : Bus World

namespace Machine

variable {World : Type}

def ofConfig (config : Config) (world : World) : Machine World where
  cpu := Cpu.ofConfig config
  bus := { world }

/-- Takes one interrupt or runs one instruction, and says how many cycles that
took. -/
def step (machine : Machine World) : Except Fault Nat × Machine World :=
  match machine.cpu.step.run machine.bus with
  | (.ok completed, bus) => (.ok completed.cycles, { cpu := completed.cpu, bus })
  | (.error fault, bus) => (.error fault, { machine with bus })

def reset (machine : Machine World) : Machine World :=
  let (cpu, bus) := machine.cpu.reset.run machine.bus
  { cpu, bus }

def setRegisters (machine : Machine World) (registers : Registers) : Machine World :=
  { machine with cpu := { machine.cpu with registers } }

def push (machine : Machine World) (value : Byte) : Machine World :=
  let (registers, bus) := (machine.cpu.registers.push value).run machine.bus
  { machine.setRegisters registers with bus }

def pull (machine : Machine World) : Byte × Machine World :=
  let ((value, registers), bus) := machine.cpu.registers.pull.run machine.bus
  (value, { machine.setRegisters registers with bus })

def drive (machine : Machine World) (change : InterruptLines → InterruptLines) :
    Machine World :=
  { machine with cpu := { machine.cpu with interrupts := change machine.cpu.interrupts } }

def setNmiLine (machine : Machine World) (asserted : Bool) : Machine World :=
  machine.drive (·.setNmiLine asserted)

def triggerNmi (machine : Machine World) : Machine World :=
  machine.drive InterruptLines.triggerNmi

def setIrqLine (machine : Machine World) (asserted : Bool) : Machine World :=
  machine.drive (·.setIrqLine asserted)

def requestStop (machine : Machine World) : Machine World :=
  { machine with bus := machine.bus.requestStop }

def clearStop (machine : Machine World) : Machine World :=
  { machine with bus := { machine.bus with stopRequested := false } }

theorem step_cycles {machine next : Machine World} {cycles : Nat}
    (completes : machine.step = (.ok cycles, next)) :
    2 ≤ cycles ∧ cycles ≤ 7 ∧ next.cpu.cycles = machine.cpu.cycles + cycles := by
  unfold step at completes
  split at completes
  · rename_i completed bus steps
    obtain ⟨rfl, rfl⟩ := Prod.mk.inj completes |>.imp Except.ok.inj id
    exact Cpu.step_cycles (by rw [steps])
  · exact absurd (Prod.mk.inj completes).1 (by simp)

end Machine

end Nmos6502
