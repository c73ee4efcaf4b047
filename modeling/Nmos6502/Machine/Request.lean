import Nmos6502.Bus.Request
import Nmos6502.Machine.Run

/-!
# Requests to the machine

What a host may ask of a machine, as data, with the reply to each.  A history of a
machine is a list of requests; a refused request does not end it.
-/

set_option autoImplicit false

namespace Nmos6502

namespace Machine

inductive Request (World : Type) where
  | step
  | run (budget : Nat)
  | runSteps (count : Nat)
  | reset
  | push (value : Byte)
  | pull
  | setNmiLine (asserted : Bool)
  | triggerNmi
  | setIrqLine (asserted : Bool)
  | requestStop
  | stopRequested
  | setRegisters (registers : Registers)
  | config
  | bus (request : Bus.Request World)

inductive Reply where
  | done
  | byte (value : Byte)
  | flag (value : Bool)
  | cycles (count : Nat)
  | summary (value : RunSummary)
  | config (value : Config)
  | bus (reply : Bus.Reply)
  | fault (cause : Fault)
  deriving DecidableEq, Repr

def Reply.ofExcept {α : Type} (wrap : α → Reply) : Except Fault α → Reply
  | .ok result => wrap result
  | .error cause => .fault cause

variable {World : Type}

def perform (machine : Machine World) : Request World → Reply × Machine World
  | .step => machine.step.map (Reply.ofExcept .cycles) id
  | .run budget => (machine.run budget).map (Reply.ofExcept .summary) id
  | .runSteps count => (machine.runSteps count).map (Reply.ofExcept .cycles) id
  | .reset => (.done, machine.reset)
  | .push value => (.done, machine.push value)
  | .pull => machine.pull.map .byte id
  | .setNmiLine asserted => (.done, machine.setNmiLine asserted)
  | .triggerNmi => (.done, machine.triggerNmi)
  | .setIrqLine asserted => (.done, machine.setIrqLine asserted)
  | .requestStop => (.done, machine.requestStop)
  | .stopRequested => (.flag machine.bus.stopRequested, machine)
  | .setRegisters registers => (.done, machine.setRegisters registers)
  | .config => (.config machine.cpu.config, machine)
  | .bus request => (machine.bus.perform request).map .bus fun bus => { machine with bus }

def performAll (machine : Machine World) :
    List (Request World) → List Reply × Machine World
  | [] => ([], machine)
  | request :: rest =>
      let (reply, machine) := machine.perform request
      let (replies, machine) := machine.performAll rest
      (reply :: replies, machine)

end Machine

end Nmos6502
