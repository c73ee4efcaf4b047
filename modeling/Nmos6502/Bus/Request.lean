import Nmos6502.Addressing

/-!
# Requests to the bus

What a host may ask of a bus, as data, with the reply to each.  A history of a bus
is a list of requests.
-/

set_option autoImplicit false

namespace Nmos6502

namespace Bus

inductive Request (World : Type) where
  | load (image : List Byte) (start : Word)
  | read (address : Word)
  | write (address : Word) (value : Byte)
  | readWord (address : Word)
  | readSplit (lowAddress highAddress : Word)
  | peek (address : Word)
  | map (region : Region World)
  | unmapAll
  | regionCount
  | describe
  | indirect (pointer : Word)
  | resolve (mode : Mode) (registers : Registers)

inductive Reply where
  | done
  | byte (value : Byte)
  | word (value : Word)
  | count (value : Nat)
  | text (value : String)
  | operand (value : Operand)
  | fault (cause : Fault)
  deriving DecidableEq, Repr

variable {World : Type}

def reply {α : Type} (bus : Bus World) (wrap : α → Reply) (program : Program α) :
    Reply × Bus World :=
  let (result, bus) := program.run bus
  (wrap result, bus)

def perform (bus : Bus World) : Request World → Reply × Bus World
  | .load image start =>
      match bus.load image start with
      | .ok loaded => (.done, loaded)
      | .error cause => (.fault cause, bus)
  | .read address => bus.reply .byte (Program.readByte address)
  | .write address value => (.done, bus.write address value)
  | .readWord address => bus.reply .word (Program.readWord address)
  | .readSplit lowAddress highAddress =>
      bus.reply .word (Program.readSplit lowAddress highAddress)
  | .peek address => (.byte (bus.peek address), bus)
  | .map region => (.done, bus.map region)
  | .unmapAll => (.done, bus.unmapAll)
  | .regionCount => (.count bus.regions.length, bus)
  | .describe => (.text bus.describe, bus)
  | .indirect pointer => bus.reply .word (Addressing.indirect pointer)
  | .resolve mode registers => bus.reply .operand (Addressing.resolve mode registers)

theorem perform_load_of_fits {bus : Bus World} {image : List Byte} {start : Word}
    (fits : start.toNat + image.length ≤ 0x10000) :
    bus.perform (.load image start) = (.done, { bus with ram := bus.ram.store start image }) := by
  rw [perform, load, if_pos fits]

theorem perform_load_of_exceeds {bus : Bus World} {image : List Byte} {start : Word}
    (exceeds : 0x10000 < start.toNat + image.length) :
    bus.perform (.load image start) = (.fault (.loadOutOfRange start image.length), bus) := by
  rw [perform, load, if_neg (Nat.not_le.mpr exceeds)]

theorem exists_perform_load (bus : Bus World) (image : List Byte) (start : Word) :
    ∃ ram, (bus.perform (.load image start)).2 = { bus with ram } := by
  rcases Nat.lt_or_ge 0x10000 (start.toNat + image.length) with exceeds | fits
  · exact ⟨bus.ram, congrArg Prod.snd (perform_load_of_exceeds exceeds)⟩
  · exact ⟨_, congrArg Prod.snd (perform_load_of_fits fits)⟩

def performAll (bus : Bus World) : List (Request World) → List Reply × Bus World
  | [] => ([], bus)
  | request :: rest =>
      let (reply, bus) := bus.perform request
      let (replies, bus) := bus.performAll rest
      (reply :: replies, bus)

end Bus

end Nmos6502
