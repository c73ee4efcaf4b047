import Nmos6502.Proofs.Bus.Transfers

/-!
# Stop requests on the bus

A device may ask for a stop in the course of an access, and the bus keeps the request.
`Program.asking` lists the accesses of a program at which a device asked; the request is
there after the program exactly if it was there before or that list is not empty
(`Program.stopRequested_run`).

A program does not look at the request.  What it does follows from what it reads: on any two
buses it makes the same accesses and comes to the same result, or it is given different bytes
by a read up to which all was the same (`Program.alike_or_parted`).  So a request can only be
noticed through a device that looks at it.  Until one makes something of it
(`Program.Heeded`), everything on the bus is as if nobody ever asked (`Program.run_muted`).
-/

set_option autoImplicit false

namespace Nmos6502

variable {α World Other : Type}

/-! ## Asking -/

namespace Bus

def asksOnRead (bus : Bus World) (address : Word) : Bool :=
  match bus.handlerAt address with
  | some handler => (handler.read address (bus.noticed handler)).2.stop
  | none => false

def asksOnWrite (bus : Bus World) (address : Word) (value : Byte) : Bool :=
  match bus.handlerAt address with
  | some handler => (handler.write address value (bus.noticed handler)).stop
  | none => false

theorem stopRequested_read (bus : Bus World) (address : Word) :
    (bus.read address).2.stopRequested = (bus.stopRequested || bus.asksOnRead address) := by
  unfold read asksOnRead
  cases bus.handlerAt address with
  | none => exact (Bool.or_false _).symm
  | some handler => rfl

theorem stopRequested_write (bus : Bus World) (address : Word) (value : Byte) :
    (bus.write address value).stopRequested =
      (bus.stopRequested || bus.asksOnWrite address value) := by
  unfold write asksOnWrite
  cases bus.handlerAt address with
  | none => exact (Bool.or_false _).symm
  | some handler => rfl

end Bus

namespace Program

/-- The transfers of a run at which a device asks for a stop, in their order. -/
def asking : Program α → Bus World → List Access
  | done _, _ => []
  | read address next, bus =>
      let (value, after) := bus.read address
      let rest := (next value).asking after
      if bus.asksOnRead address then .read address value :: rest else rest
  | write address value next, bus =>
      let rest := next.asking (bus.write address value)
      if bus.asksOnWrite address value then .write address value :: rest else rest

/-- A request is made by a device of the bus or was there before, and is never lost. -/
theorem stopRequested_run (program : Program α) (bus : Bus World) :
    (program.run bus).2.stopRequested = true ↔
      bus.stopRequested = true ∨ program.asking bus ≠ [] := by
  induction program generalizing bus with
  | done result => simp [asking]
  | read address next inductionHypothesis =>
      have rest := inductionHypothesis (bus.read address).1 (bus.read address).2
      rw [bus.stopRequested_read] at rest
      refine rest.trans ?_
      simp only [asking]
      cases bus.asksOnRead address <;> simp
  | write address value next inductionHypothesis =>
      have rest := inductionHypothesis (bus.write address value)
      rw [bus.stopRequested_write] at rest
      refine rest.trans ?_
      simp only [asking]
      cases bus.asksOnWrite address value <;> simp

end Program

/-! ## What a program does with what it reads -/

/-- The same accesses, up to a read that is answered differently. -/
def Access.Parted (transfers others : List Access) : Prop :=
  ∃ shared address value other rest further,
    value ≠ other ∧ transfers = shared ++ .read address value :: rest ∧
      others = shared ++ .read address other :: further

theorem Access.Parted.cons (access : Access) {transfers others : List Access}
    (parted : Parted transfers others) : Parted (access :: transfers) (access :: others) := by
  obtain ⟨shared, address, value, other, rest, further, apart, rfl, rfl⟩ := parted
  exact ⟨access :: shared, address, value, other, rest, further, apart, rfl, rfl⟩

/-- Two runs of a program do the same, or part where they are given different bytes. -/
theorem Program.alike_or_parted (program : Program α) (bus : Bus World) (other : Bus Other) :
    ((program.run other).1 = (program.run bus).1 ∧
        program.accesses other = program.accesses bus) ∨
      Access.Parted (program.accesses bus) (program.accesses other) := by
  induction program generalizing bus other with
  | done result => exact .inl ⟨rfl, rfl⟩
  | read address next inductionHypothesis =>
      -- What follows a read depends on its byte alone, so a different byte ends the comparison.
      by_cases same : (other.read address).1 = (bus.read address).1
      · have rest := inductionHypothesis (bus.read address).1 (bus.read address).2
          (other.read address).2
        simp only [run, accesses, same]
        exact rest.imp (And.imp_right (congrArg (List.cons _))) (.cons _)
      · exact .inr ⟨[], address, _, _, _, _, Ne.symm same, rfl, rfl⟩
  | write address value next inductionHypothesis =>
      have rest := inductionHypothesis (bus.write address value) (other.write address value)
      exact rest.imp (And.imp_right (congrArg (List.cons _))) (.cons _)

/-! ## Devices that look at the request -/

/-- A stop is requested, and the device at the address makes something of it. -/
def Bus.Heeds (bus : Bus World) (address : Word) : Prop :=
  ∃ handler, bus.handlerAt address = some handler ∧
    bus.noticed handler ≠ handler.notice false bus.world

def Program.Heeded : Program α → Bus World → Prop
  | done _, _ => False
  | read address next, bus =>
      bus.Heeds address ∨ (next (bus.read address).1).Heeded (bus.read address).2
  | write address value next, bus => bus.Heeds address ∨ next.Heeded (bus.write address value)

/-- The device that does the same but never asks for a stop. -/
def Handler.muted (handler : Handler World) : Handler World where
  read address world :=
    ((handler.read address world).1, { world := (handler.read address world).2.world })
  write address value world := { world := (handler.write address value world).world }
  notice := handler.notice

def Region.muted (region : Region World) : Region World :=
  { region with handler := region.handler.muted }

namespace Bus

def muted (bus : Bus World) : Bus World :=
  { bus with regions := bus.regions.map Region.muted, stopRequested := false }

theorem handlerAt_muted (bus : Bus World) (address : Word) :
    bus.muted.handlerAt address = (bus.handlerAt address).map Handler.muted := by
  have sameRange : (Region.contains · address) ∘ Region.muted = (Region.contains · address) :=
    funext fun (region : Region World) => rfl
  simp only [handlerAt, muted, List.find?_map, sameRange, Option.map_map]
  rfl

variable {bus : Bus World} {address : Word}

theorem noticed_muted {handler : Handler World} (unheeded : ¬ bus.Heeds address)
    (owner : bus.handlerAt address = some handler) :
    bus.muted.noticed handler.muted = bus.noticed handler :=
  Eq.symm (Classical.not_not.mp fun differs => unheeded ⟨handler, owner, differs⟩)

theorem read_muted (unheeded : ¬ bus.Heeds address) :
    bus.muted.read address = ((bus.read address).1, (bus.read address).2.muted) := by
  cases owner : bus.handlerAt address with
  | none =>
      rw [read_of_uncovered owner, read_of_uncovered (by rw [handlerAt_muted, owner]; rfl)]
      rfl
  | some handler =>
      rw [read_of_covered owner, read_of_covered (by rw [handlerAt_muted, owner]; rfl),
        noticed_muted unheeded owner]
      rfl

theorem write_muted (unheeded : ¬ bus.Heeds address) (value : Byte) :
    bus.muted.write address value = (bus.write address value).muted := by
  cases owner : bus.handlerAt address with
  | none =>
      rw [write_of_uncovered value owner,
        write_of_uncovered value (by rw [handlerAt_muted, owner]; rfl)]
      rfl
  | some handler =>
      rw [write_of_covered value owner,
        write_of_covered value (by rw [handlerAt_muted, owner]; rfl),
        noticed_muted unheeded owner]
      rfl

end Bus

theorem Program.run_muted {program : Program α} {bus : Bus World}
    (unheeded : ¬ program.Heeded bus) :
    program.run bus.muted = ((program.run bus).1, (program.run bus).2.muted) := by
  induction program generalizing bus with
  | done result => rfl
  | read address next inductionHypothesis =>
      obtain ⟨first, rest⟩ := not_or.mp unheeded
      simp only [run, bus.read_muted first]
      exact inductionHypothesis _ rest
  | write address value next inductionHypothesis =>
      obtain ⟨first, rest⟩ := not_or.mp unheeded
      simp only [run, bus.write_muted first]
      exact inductionHypothesis rest

theorem Program.accesses_muted {program : Program α} {bus : Bus World}
    (unheeded : ¬ program.Heeded bus) : program.accesses bus.muted = program.accesses bus := by
  induction program generalizing bus with
  | done result => rfl
  | read address next inductionHypothesis =>
      obtain ⟨first, rest⟩ := not_or.mp unheeded
      simp only [accesses, bus.read_muted first]
      exact congrArg (List.cons _) (inductionHypothesis _ rest)
  | write address value next inductionHypothesis =>
      obtain ⟨first, rest⟩ := not_or.mp unheeded
      simp only [accesses, bus.write_muted first]
      exact congrArg (List.cons _) (inductionHypothesis rest)

end Nmos6502
