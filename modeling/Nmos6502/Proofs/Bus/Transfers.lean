import Nmos6502.Bus.Program

/-!
# The transfers of a bus program

A program lists the transfers it asks for.  Carrying that list out, one transfer
after the other, takes the bus from the state before the program to the state
after it, and each read in the list has the byte that the bus gives at that moment
(`Program.carries_accesses`).  So the list is neither a summary nor a prediction:
the bus sees these transfers, in this order, and nothing else.

No transfer changes which device answers where, so a cell that belongs to the
memory before a program belongs to it afterwards.
-/

set_option autoImplicit false

namespace Nmos6502

variable {α World : Type}

namespace Bus

/-- Carrying out the listed transfers one after the other leads from the first bus
to the last, and each listed read is answered with its listed byte. -/
def Carries : Bus World → List Access → Bus World → Prop
  | bus, [], after => after = bus
  | bus, .read address value :: rest, after =>
      (bus.read address).1 = value ∧ (bus.read address).2.Carries rest after
  | bus, .write address value :: rest, after => (bus.write address value).Carries rest after

def Plain (bus : Bus World) (address : Word) : Prop := bus.handlerAt address = none

theorem plain_congr {bus other : Bus World} (same : other.regions = bus.regions)
    {address : Word} : other.Plain address ↔ bus.Plain address := by
  simp only [Plain, handlerAt, same]

@[simp] theorem regions_read (bus : Bus World) (address : Word) :
    (bus.read address).2.regions = bus.regions :=
  (bus.read_keeps address).2

@[simp] theorem ram_read (bus : Bus World) (address : Word) :
    (bus.read address).2.ram = bus.ram :=
  (bus.read_keeps address).1

@[simp] theorem plain_write {bus : Bus World} {address other : Word} {value : Byte} :
    (bus.write other value).Plain address ↔ bus.Plain address :=
  plain_congr (bus.regions_write other value)

theorem Plain.read {bus : Bus World} {address : Word} (plain : bus.Plain address) :
    bus.read address = (bus.ram.get address, bus) :=
  read_of_uncovered plain

theorem Plain.write {bus : Bus World} {address : Word} (plain : bus.Plain address)
    (value : Byte) : bus.write address value = { bus with ram := bus.ram.set address value } :=
  write_of_uncovered value plain

theorem ram_get_write_of_ne (bus : Bus World) {address other : Word} (value : Byte)
    (different : other ≠ address) :
    (bus.write address value).ram.get other = bus.ram.get other := by
  unfold write
  split
  · rfl
  · exact bus.ram.get_set_of_ne value different

theorem Carries.append {bus after : Bus World} {first second : List Access}
    (carries : bus.Carries (first ++ second) after) :
    ∃ middle, bus.Carries first middle ∧ middle.Carries second after := by
  induction first generalizing bus with
  | nil => exact ⟨bus, rfl, carries⟩
  | cons transfer rest inductionHypothesis =>
      cases transfer with
      | read address value =>
          obtain ⟨answered, carries⟩ := carries
          obtain ⟨middle, before, later⟩ := inductionHypothesis carries
          exact ⟨middle, ⟨answered, before⟩, later⟩
      | write address value => exact inductionHypothesis carries

theorem Carries.regions {bus after : Bus World} {transfers : List Access}
    (carries : bus.Carries transfers after) : after.regions = bus.regions := by
  induction transfers generalizing bus with
  | nil => rw [carries]
  | cons transfer rest inductionHypothesis =>
      cases transfer with
      | read address value => exact (inductionHypothesis carries.2).trans (bus.regions_read address)
      | write address value =>
          exact (inductionHypothesis carries).trans (bus.regions_write address value)

theorem Carries.ram_get {bus after : Bus World} {transfers : List Access} {address : Word}
    (carries : bus.Carries transfers after)
    (unwritten : ∀ value, .write address value ∉ transfers) :
    after.ram.get address = bus.ram.get address := by
  induction transfers generalizing bus with
  | nil => rw [carries]
  | cons transfer rest inductionHypothesis =>
      have others : ∀ value, .write address value ∉ rest :=
        fun value member => unwritten value (List.mem_cons_of_mem _ member)
      cases transfer with
      | read cell value => rw [inductionHypothesis carries.2 others, ram_read]
      | write cell value =>
          have different : address ≠ cell := by
            rintro rfl
            exact unwritten value (List.mem_cons_self ..)
          rw [inductionHypothesis carries others, ram_get_write_of_ne _ _ different]

end Bus

namespace Program

@[simp] theorem regions_run (program : Program α) (bus : Bus World) :
    (program.run bus).2.regions = bus.regions := by
  induction program generalizing bus with
  | done result => rfl
  | read address next inductionHypothesis =>
      exact (inductionHypothesis _ _).trans (bus.regions_read address)
  | write address value next inductionHypothesis =>
      exact (inductionHypothesis _).trans (bus.regions_write address value)

/-- The listed transfers of a program are the ones it makes. -/
theorem carries_accesses (program : Program α) (bus : Bus World) :
    bus.Carries (program.accesses bus) (program.run bus).2 := by
  induction program generalizing bus with
  | done result => rfl
  | read address next inductionHypothesis => exact ⟨rfl, inductionHypothesis _ _⟩
  | write address value next inductionHypothesis => exact inductionHypothesis _

@[simp] theorem accesses_readByte (address : Word) (bus : Bus World) :
    (readByte address).accesses bus = [.read address (bus.read address).1] := rfl

@[simp] theorem accesses_writeByte (address : Word) (value : Byte) (bus : Bus World) :
    (writeByte address value).accesses bus = [.write address value] := rfl

theorem run_readSplit (lowAddress highAddress : Word) (bus : Bus World) :
    (readSplit lowAddress highAddress).run bus =
      (Word.ofBytes ((bus.read lowAddress).2.read highAddress).1 (bus.read lowAddress).1,
        ((bus.read lowAddress).2.read highAddress).2) := rfl

@[simp] theorem ram_readWord (address : Word) (bus : Bus World) :
    ((readWord address).run bus).2.ram = bus.ram := by
  rw [readWord, run_readSplit, Bus.ram_read, Bus.ram_read]

theorem run_readWord_of_plain {address : Word} {bus : Bus World} (low : bus.Plain address)
    (high : bus.Plain (address + 1)) :
    (readWord address).run bus =
      (Word.ofBytes (bus.ram.get (address + 1)) (bus.ram.get address), bus) := by
  rw [readWord, run_readSplit, low.read, high.read]

end Program

end Nmos6502
