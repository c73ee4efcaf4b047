import Nmos6502.Bus.Request
import Nmos6502.Proofs.Bus.Transfers

/-!
# Cells that are out of sight

Some cells of the memory may be hidden from a program: it neither reads nor writes them,
because it has no use for them or because devices lie over them.  What these cells hold then
makes no difference.  On a bus with other bytes in them the program has the same result and
makes the same transfers, and both buses keep their bytes there (`Program.run_withRam`).
-/

set_option autoImplicit false

namespace Nmos6502

variable {α World : Type}

def Access.address : Access → Word
  | read address _ => address
  | write address _ => address

/-- The second memory is like the first but for the hidden cells; in these the two hold what
they are to hold. -/
structure Ram.Veils (hidden : Word → Prop) (below above first second : Ram) : Prop where
  visible : ∀ address, ¬ hidden address → second.get address = first.get address
  below : ∀ address, hidden address → first.get address = below.get address
  above : ∀ address, hidden address → second.get address = above.get address

variable {hidden : Word → Prop} {below above : Ram}

theorem Ram.Veils.set {first second : Ram} (veils : Veils hidden below above first second)
    {address : Word} (open_ : ¬ hidden address) (value : Byte) :
    Veils hidden below above (first.set address value) (second.set address value) := by
  have apart {other : Word} (covered : hidden other) : other ≠ address := by
    rintro rfl
    exact open_ covered
  constructor
  case visible =>
    intro other visible
    rw [get_set, get_set, veils.visible other visible]
  case below =>
    intro other covered
    rw [get_set_of_ne _ _ (apart covered), veils.below other covered]
  case above =>
    intro other covered
    rw [get_set_of_ne _ _ (apart covered), veils.above other covered]

namespace Bus

def withRam (bus : Bus World) (ram : Ram) : Bus World := { bus with ram }

def Touches (bus : Bus World) (transfers : List Access) (address : Word) : Prop :=
  bus.Plain address ∧ ∃ transfer ∈ transfers, transfer.address = address

theorem touches_congr {bus other : Bus World} (same : other.regions = bus.regions)
    {transfers : List Access} {address : Word} :
    other.Touches transfers address ↔ bus.Touches transfers address := by
  rw [Touches, plain_congr same, Touches]

def Spares (bus : Bus World) (hidden : Word → Prop) (transfers : List Access) : Prop :=
  ∀ address, bus.Touches transfers address → ¬ hidden address

theorem Spares.head {bus : Bus World} {transfer : Access} {rest : List Access}
    (spares : bus.Spares hidden (transfer :: rest)) (plain : bus.Plain transfer.address) :
    ¬ hidden transfer.address :=
  spares _ ⟨plain, transfer, List.mem_cons_self .., rfl⟩

theorem Spares.tail {bus other : Bus World} {transfer : Access} {rest : List Access}
    (spares : bus.Spares hidden (transfer :: rest)) (same : other.regions = bus.regions) :
    other.Spares hidden rest := by
  intro address touches
  obtain ⟨plain, later, member, here⟩ := (touches_congr same).mp touches
  exact spares address ⟨plain, later, List.mem_cons_of_mem _ member, here⟩

theorem read_withRam {bus : Bus World} {ram : Ram} {address : Word}
    (veils : Ram.Veils hidden below above bus.ram ram)
    (spared : bus.Plain address → ¬ hidden address) :
    (bus.withRam ram).read address =
      ((bus.read address).1, (bus.read address).2.withRam ram) := by
  cases owner : bus.handlerAt address with
  | none =>
      have also : (bus.withRam ram).handlerAt address = none := owner
      rw [read_of_uncovered owner, read_of_uncovered also]
      exact Prod.ext (veils.visible address (spared owner)) rfl
  | some handler =>
      have also : (bus.withRam ram).handlerAt address = some handler := owner
      rw [read_of_covered owner, read_of_covered also]
      rfl

theorem write_withRam {bus : Bus World} {ram : Ram} {address : Word}
    (veils : Ram.Veils hidden below above bus.ram ram)
    (spared : bus.Plain address → ¬ hidden address) (value : Byte) :
    ∃ after, (bus.withRam ram).write address value = (bus.write address value).withRam after ∧
      Ram.Veils hidden below above (bus.write address value).ram after := by
  cases owner : bus.handlerAt address with
  | none =>
      have also : (bus.withRam ram).handlerAt address = none := owner
      rw [write_of_uncovered value owner, write_of_uncovered value also]
      exact ⟨_, rfl, veils.set (spared owner) value⟩
  | some handler =>
      have also : (bus.withRam ram).handlerAt address = some handler := owner
      rw [write_of_covered value owner, write_of_covered value also]
      exact ⟨_, rfl, veils⟩

end Bus

/-- A program that spares the hidden cells depends on none of them and changes none. -/
theorem Program.run_withRam {program : Program α} {bus : Bus World} {ram : Ram}
    (veils : Ram.Veils hidden below above bus.ram ram)
    (spares : bus.Spares hidden (program.accesses bus)) :
    ∃ after,
      program.run (bus.withRam ram) = ((program.run bus).1, (program.run bus).2.withRam after) ∧
        program.accesses (bus.withRam ram) = program.accesses bus ∧
        Ram.Veils hidden below above (program.run bus).2.ram after := by
  induction program generalizing bus ram with
  | done result => exact ⟨ram, rfl, rfl, veils⟩
  | read address next inductionHypothesis =>
      have kept : Ram.Veils hidden below above (bus.read address).2.ram ram := by
        rwa [bus.ram_read]
      have spared : bus.Plain address → ¬ hidden address := spares.head
      have rest := spares.tail (bus.regions_read address)
      obtain ⟨after, result, transfers, last⟩ := inductionHypothesis _ kept rest
      have reads := Bus.read_withRam veils spared
      refine ⟨after, ?_, ?_, last⟩
      · rw [run, reads]
        exact result
      · rw [accesses, reads]
        exact congrArg (List.cons _) transfers
  | write address value next inductionHypothesis =>
      have spared : bus.Plain address → ¬ hidden address := spares.head
      obtain ⟨written, writes, kept⟩ := Bus.write_withRam veils spared value
      have rest := spares.tail (bus.regions_write address value)
      obtain ⟨after, result, transfers, last⟩ := inductionHypothesis kept rest
      refine ⟨after, ?_, ?_, last⟩
      · rw [run, writes]
        exact result
      · rw [accesses, writes]
        exact congrArg (List.cons _) transfers

namespace Bus

theorem load_withRam {bus : Bus World} {ram : Ram} {image : List Byte} {start : Word}
    (veils : Ram.Veils hidden below above bus.ram ram)
    (clear : start.toNat + image.length ≤ 0x10000 →
      ∀ address, (address - start).toNat < image.length → ¬ hidden address) :
    ∃ after,
      (bus.withRam ram).perform (.load image start) =
          ((bus.perform (.load image start)).1,
            (bus.perform (.load image start)).2.withRam after) ∧
        Ram.Veils hidden below above (bus.perform (.load image start)).2.ram after := by
  rcases Nat.lt_or_ge 0x10000 (start.toNat + image.length) with exceeds | fits
  · rw [perform_load_of_exceeds exceeds, perform_load_of_exceeds exceeds]
    exact ⟨ram, rfl, veils⟩
  · rw [perform_load_of_fits fits, perform_load_of_fits fits]
    refine ⟨_, rfl, ?_⟩
    have within : image.length ≤ 0x10000 := by omega
    have outside {address : Word} (covered : hidden address) :
        image[(address - start).toNat]? = none :=
      List.getElem?_eq_none (Nat.le_of_not_lt fun inside => clear fits address inside covered)
    constructor
    case visible =>
      intro address visible
      rw [Ram.get_store within, Ram.get_store within]
      exact congrArg (Option.getD _) (veils.visible address visible)
    case below =>
      intro address covered
      rw [Ram.get_store within, outside covered]
      exact veils.below address covered
    case above =>
      intro address covered
      rw [Ram.get_store within, outside covered]
      exact veils.above address covered

end Bus

end Nmos6502
