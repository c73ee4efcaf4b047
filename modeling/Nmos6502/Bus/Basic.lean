import Nmos6502.Ram
import Nmos6502.Fault

/-!
# The memory bus

Device regions lie over the memory.  An access belongs to the region that was
mapped first among those that contain its address, for reads and writes alike;
an address outside every region belongs to the memory.  The state of all devices
is one value of an arbitrary type `World`, so devices may share what they know.  A
device may ask the processor to stop, and may look whether it has been asked to.

The main statements say who answers an access: `read_of_uncovered` and
`write_of_uncovered` for the memory, `read_of_covered` and `write_of_covered` for
a device, which never touches the memory.
-/

set_option autoImplicit false

namespace Nmos6502

/-- What an addressed device does: its new state, and whether it asks the
processor to stop. -/
structure Effect (World : Type) where
  world : World
  stop : Bool := false

/-- The two sides of a device, both of which are given the address on the bus.  A device may look
whether a stop is requested, and takes notice of it before it answers. -/
structure Handler (World : Type) where
  read : Word → World → Byte × Effect World
  write : Word → Byte → World → Effect World
  notice : Bool → World → World := fun _ world => world

/-- A device with the range of addresses it answers, both ends included. -/
structure Region (World : Type) where
  first : Word
  last : Word
  handler : Handler World
  ordered : first ≤ last

namespace Region

variable {World : Type}

def between (one other : Word) (handler : Handler World) : Region World :=
  if ordered : one ≤ other then { first := one, last := other, handler, ordered }
  else { first := other, last := one, handler, ordered := by bv_omega }

def contains (region : Region World) (address : Word) : Bool :=
  decide (region.first ≤ address ∧ address ≤ region.last)

def rangeText (region : Region World) : String :=
  region.first.dollarHex ++ "-" ++ region.last.dollarHex

theorem contains_between (one other address : Word) (handler : Handler World) :
    (between one other handler).contains address = true ↔
      one ≤ address ∧ address ≤ other ∨ other ≤ address ∧ address ≤ one := by
  unfold between
  split <;> simp only [contains, decide_eq_true_eq] <;> bv_omega

end Region

/-- The memory, the mapped devices with their state, and the stop request that
a device or the host has made. -/
structure Bus (World : Type) where
  ram : Ram := Ram.zero
  regions : List (Region World) := []
  world : World
  stopRequested : Bool := false

namespace Bus

variable {World : Type}

/-- The device that answers at an address, if any: the one mapped first. -/
def handlerAt (bus : Bus World) (address : Word) : Option (Handler World) :=
  (bus.regions.find? (·.contains address)).map Region.handler

def noticed (bus : Bus World) (handler : Handler World) : World :=
  handler.notice bus.stopRequested bus.world

def absorb (bus : Bus World) (effect : Effect World) : Bus World :=
  { bus with world := effect.world, stopRequested := bus.stopRequested || effect.stop }

def read (bus : Bus World) (address : Word) : Byte × Bus World :=
  match bus.handlerAt address with
  | some handler =>
      let (value, effect) := handler.read address (bus.noticed handler)
      (value, bus.absorb effect)
  | none => (bus.ram.get address, bus)

def write (bus : Bus World) (address : Word) (value : Byte) : Bus World :=
  match bus.handlerAt address with
  | some handler => bus.absorb (handler.write address value (bus.noticed handler))
  | none => { bus with ram := bus.ram.set address value }

def map (bus : Bus World) (region : Region World) : Bus World :=
  { bus with regions := bus.regions ++ [region] }

def unmapAll (bus : Bus World) : Bus World :=
  { bus with regions := [] }

def peek (bus : Bus World) (address : Word) : Byte := bus.ram.get address

/-- Puts an image into the memory, under the devices.  An image that does not
fit between its start and the end of memory is refused. -/
def load (bus : Bus World) (image : List Byte) (start : Word) : Except Fault (Bus World) :=
  if start.toNat + image.length ≤ 0x10000 then
    .ok { bus with ram := bus.ram.store start image }
  else .error (.loadOutOfRange start image.length)

def requestStop (bus : Bus World) : Bus World :=
  { bus with stopRequested := true }

def describe (bus : Bus World) : String :=
  let ranges := bus.regions.map fun region => "\"" ++ region.rangeText ++ "\""
  "Bus \x7b regions: [" ++ String.intercalate ", " ranges ++ "] \x7d"

theorem read_of_uncovered {bus : Bus World} {address : Word}
    (uncovered : bus.handlerAt address = none) :
    bus.read address = (bus.ram.get address, bus) := by
  simp [read, uncovered]

theorem read_of_covered {bus : Bus World} {address : Word} {handler : Handler World}
    (covered : bus.handlerAt address = some handler) :
    bus.read address =
      ((handler.read address (bus.noticed handler)).1,
        bus.absorb (handler.read address (bus.noticed handler)).2) := by
  simp [read, covered]

theorem write_of_uncovered {bus : Bus World} {address : Word} (value : Byte)
    (uncovered : bus.handlerAt address = none) :
    bus.write address value = { bus with ram := bus.ram.set address value } := by
  simp [write, uncovered]

theorem write_of_covered {bus : Bus World} {address : Word} {handler : Handler World}
    (value : Byte) (covered : bus.handlerAt address = some handler) :
    bus.write address value = bus.absorb (handler.write address value (bus.noticed handler)) := by
  simp [write, covered]

theorem read_keeps (bus : Bus World) (address : Word) :
    (bus.read address).2.ram = bus.ram ∧ (bus.read address).2.regions = bus.regions := by
  unfold read
  split <;> exact ⟨rfl, rfl⟩

@[simp] theorem regions_write (bus : Bus World) (address : Word) (value : Byte) :
    (bus.write address value).regions = bus.regions := by
  unfold write
  split <;> rfl

theorem handlerAt_map {bus : Bus World} {address : Word} {handler : Handler World}
    (region : Region World) (covered : bus.handlerAt address = some handler) :
    (bus.map region).handlerAt address = some handler := by
  obtain ⟨owner, found, rfl⟩ := Option.map_eq_some_iff.mp covered
  simp [handlerAt, map, List.find?_append, found]

end Bus

end Nmos6502
