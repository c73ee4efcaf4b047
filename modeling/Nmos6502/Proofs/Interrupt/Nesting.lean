import Nmos6502.Proofs.Interrupt.Frame

/-!
# Nested interrupts

An NMI can interrupt the handler of another one.  With at most eighty-five frames no
cell of the stack page is used twice, so the frames of nested interrupts are all in
memory at the same time (`holdsFrame_nest`), and the returns take them off again from
the innermost outward, whatever the handlers do between two returns as long as they
leave the frames that are still live alone.
-/

set_option autoImplicit false

namespace Nmos6502

namespace Machine

variable {World : Type}

/-- The machine after a number of rounds, each of them a pulse on the NMI line and the
step that serves it. -/
def nest (machine : Machine World) : Nat → Machine World
  | 0 => machine
  | depth + 1 => (machine.nest depth).triggerNmi.step.2

theorem enters_triggerNmi (machine : Machine World) :
    machine.triggerNmi.Enters .nmi machine.cpu.registers.pc :=
  ⟨rfl, rfl⟩

theorem regions_nest (machine : Machine World) (depth : Nat) :
    (machine.nest depth).bus.regions = machine.bus.regions := by
  induction depth with
  | zero => rfl
  | succ depth inductionHypothesis =>
      exact (regions_step (machine.nest depth).triggerNmi).trans inductionHypothesis

def slot (machine : Machine World) (offset : Nat) : Word :=
  Registers.stackCell (machine.cpu.registers.sp - BitVec.ofNat 8 offset)

theorem slot_ne_slot (machine : Machine World) (offset other : Nat) (above : offset < other)
    (near : other < offset + 256) : machine.slot offset ≠ machine.slot other := by
  intro same
  have equal := Registers.stackCell_injective.mp same
  have values := congrArg BitVec.toNat equal
  simp only [BitVec.toNat_sub, BitVec.toNat_ofNat] at values
  omega

theorem sub_ofNat_sub (pointer : Byte) (offset more : Nat) :
    pointer - BitVec.ofNat 8 offset - BitVec.ofNat 8 more =
      pointer - BitVec.ofNat 8 (offset + more) := by
  apply BitVec.eq_of_toNat_eq
  simp only [BitVec.toNat_sub, BitVec.toNat_ofNat]
  omega

theorem sp_nest (machine : Machine World) (depth : Nat) :
    (machine.nest depth).cpu.registers.sp =
      machine.cpu.registers.sp - BitVec.ofNat 8 (3 * depth) := by
  induction depth with
  | zero => simp [nest]
  | succ depth inductionHypothesis =>
      obtain ⟨-, outcome, -⟩ := step_of_enters (machine.nest depth).enters_triggerNmi
      have registers := congrArg (fun pair => pair.1.sp) outcome
      rw [Registers.run_enter] at registers
      have lowered : (machine.nest (depth + 1)).cpu.registers.sp =
          (machine.nest depth).cpu.registers.sp - BitVec.ofNat 8 3 := registers
      rw [lowered, inductionHypothesis, sub_ofNat_sub, Nat.mul_succ]

theorem holdsFrame_nest_iff (machine : Machine World) (bus : Bus World) (level : Nat)
    (resume : Word) (saved : Byte) :
    bus.HoldsFrame (machine.nest level).cpu.registers.sp resume saved ↔
      bus.ram.get (machine.slot (3 * level)) = resume.high ∧
        bus.ram.get (machine.slot (3 * level + 1)) = resume.low ∧
        bus.ram.get (machine.slot (3 * level + 2)) = saved := by
  rw [sp_nest, Bus.HoldsFrame, slot, slot, slot, ← sub_ofNat_sub, ← sub_ofNat_sub]
  exact Iff.rfl

theorem plainFrame_nest {machine : Machine World} {depth level : Nat} (inside : level < depth)
    (plain : ∀ offset < 3 * depth, machine.bus.Plain (machine.slot offset)) :
    machine.bus.PlainFrame (machine.nest level).cpu.registers.sp := by
  have first := plain (3 * level) (by omega)
  have second := plain (3 * level + 1) (by omega)
  have third := plain (3 * level + 2) (by omega)
  rw [slot, ← sub_ofNat_sub] at second third
  rw [sp_nest]
  exact ⟨first, second, third⟩

theorem entered_nest {machine : Machine World} {depth level : Nat} (inside : level < depth)
    (plain : ∀ offset < 3 * depth, machine.bus.Plain (machine.slot offset)) :
    (machine.nest level).triggerNmi.Entered (machine.nest (level + 1)) .nmi
      (machine.nest level).cpu.registers.pc := by
  apply entered_of_enters (enters_triggerNmi _)
  exact (Bus.plainFrame_congr (machine.regions_nest level)).mpr (plainFrame_nest inside plain)

/-- A round leaves the cells of the rounds before it alone: its own three cells are
other cells as long as the page has room. -/
theorem ram_get_nest_succ {machine : Machine World} {depth offset : Nat} (bounded : depth < 85)
    (plain : ∀ offset < 3 * (depth + 1), machine.bus.Plain (machine.slot offset))
    (above : offset < 3 * depth) :
    (machine.nest (depth + 1)).bus.ram.get (machine.slot offset) =
      (machine.nest depth).bus.ram.get (machine.slot offset) := by
  have entered := entered_nest (Nat.lt_succ_self depth) plain
  have first := machine.slot_ne_slot offset (3 * depth) above (by omega)
  have second := machine.slot_ne_slot offset (3 * depth + 1) (by omega) (by omega)
  have third := machine.slot_ne_slot offset (3 * depth + 2) (by omega) (by omega)
  rw [slot, slot, ← sp_nest] at first
  rw [slot, slot, ← sub_ofNat_sub, ← sp_nest] at second third
  exact entered.untouched _ first second third

theorem holdsFrame_nest {machine : Machine World} {depth : Nat} (bounded : depth ≤ 85)
    (plain : ∀ offset < 3 * depth, machine.bus.Plain (machine.slot offset)) :
    ∀ level < depth,
      (machine.nest depth).bus.HoldsFrame (machine.nest level).cpu.registers.sp
        (machine.nest level).cpu.registers.pc ((machine.nest level).savedStatus .nmi) := by
  induction depth with
  | zero => exact fun level inside => absurd inside (Nat.not_lt_zero level)
  | succ depth inductionHypothesis =>
      intro level inside
      rcases Nat.lt_succ_iff_lt_or_eq.mp inside with older | rfl
      · have held := inductionHypothesis (by omega)
          (fun offset above => plain offset (by omega)) level older
        rw [holdsFrame_nest_iff] at held ⊢
        rw [ram_get_nest_succ (by omega) plain (by omega),
          ram_get_nest_succ (by omega) plain (by omega),
          ram_get_nest_succ (by omega) plain (by omega)]
        exact held
      · exact (entered_nest (Nat.lt_succ_self level) plain).frame

/-! ## Returning from all of them -/

/-- Coming back from nested interrupts: after so many rounds of nesting, so many returns
from interrupt have been taken.  Between two returns a handler may do anything that
leaves the stack pointer where it was and the frames that are still live as they were;
these are the cells above the pointer. -/
inductive Unwinds (machine : Machine World) (depth : Nat) : Nat → Machine World → Prop where
  | nested : Unwinds machine depth 0 (machine.nest depth)
  | handled {returned : Nat} {before after : Machine World} :
      Unwinds machine depth returned before → before.Reaches after →
      after.cpu.registers.sp = before.cpu.registers.sp →
      (∀ offset, 0 < offset → offset ≤ 3 * (depth - returned) →
        after.bus.ram.get
            (Registers.stackCell (before.cpu.registers.sp + BitVec.ofNat 8 offset)) =
          before.bus.ram.get
            (Registers.stackCell (before.cpu.registers.sp + BitVec.ofNat 8 offset))) →
      Unwinds machine depth returned after
  | returned {returned : Nat} {before : Machine World} :
      Unwinds machine depth returned before → before.RunsA .rti →
      Unwinds machine depth (returned + 1) before.step.2

/-- While the returns are fewer than the rounds, the stack pointer and the live frames
are those of the rounds that are still to be left. -/
structure Live (machine : Machine World) (level : Nat) (later : Machine World) : Prop where
  regions : later.bus.regions = machine.bus.regions
  sp : later.cpu.registers.sp = (machine.nest level).cpu.registers.sp
  frames : ∀ inner < level,
    later.bus.HoldsFrame (machine.nest inner).cpu.registers.sp
      (machine.nest inner).cpu.registers.pc ((machine.nest inner).savedStatus .nmi)

theorem Live.handled {machine before after : Machine World} {level : Nat}
    (live : machine.Live level before) (reaches : before.Reaches after)
    (balanced : after.cpu.registers.sp = before.cpu.registers.sp)
    (intact : ∀ offset, 0 < offset → offset ≤ 3 * level →
      after.bus.ram.get (Registers.stackCell (before.cpu.registers.sp + BitVec.ofNat 8 offset)) =
        before.bus.ram.get
          (Registers.stackCell (before.cpu.registers.sp + BitVec.ofNat 8 offset))) :
    machine.Live level after := by
  have kept : ∀ offset < 3 * level,
      after.bus.ram.get (machine.slot offset) = before.bus.ram.get (machine.slot offset) := by
    intro offset above
    have same : before.cpu.registers.sp + BitVec.ofNat 8 (3 * level - offset) =
        machine.cpu.registers.sp - BitVec.ofNat 8 offset := by
      rw [live.sp, sp_nest]
      apply BitVec.eq_of_toNat_eq
      simp only [BitVec.toNat_add, BitVec.toNat_sub, BitVec.toNat_ofNat]
      omega
    have cell := intact (3 * level - offset) (by omega) (by omega)
    rw [same] at cell
    exact cell
  refine ⟨reaches.regions.trans live.regions, balanced.trans live.sp, ?_⟩
  intro inner inside
  have held := live.frames inner inside
  rw [holdsFrame_nest_iff] at held ⊢
  rw [kept _ (by omega), kept _ (by omega), kept _ (by omega)]
  exact held

theorem Live.returned {machine before : Machine World} {depth level : Nat}
    (live : machine.Live (level + 1) before) (inside : level < depth)
    (plain : ∀ offset < 3 * depth, machine.bus.Plain (machine.slot offset))
    (returns : before.RunsA .rti) :
    before.step.2.cpu.registers =
        { before.cpu.registers with
          sp := (machine.nest level).cpu.registers.sp
          pc := (machine.nest level).cpu.registers.pc
          status := (machine.nest level).cpu.registers.status } ∧
      machine.Live level before.step.2 := by
  have framePlain : (machine.nest level).bus.PlainFrame (machine.nest level).cpu.registers.sp :=
    (Bus.plainFrame_congr (machine.regions_nest level)).mpr (plainFrame_nest inside plain)
  have same : before.bus.regions = (machine.nest level).bus.regions :=
    live.regions.trans (machine.regions_nest level).symm
  have below : before.cpu.registers.sp = (machine.nest level).cpu.registers.sp - 3 :=
    live.sp.trans (entered_nest inside plain).sp
  have intact := live.frames level (Nat.lt_succ_self level)
  obtain ⟨-, registers⟩ := step_of_rti_of_entered framePlain same returns below intact
  obtain ⟨-, -, bus⟩ :=
    step_of_rti returns below ((Bus.plainFrame_congr same).mpr framePlain) intact
  refine ⟨registers, (before.regions_step).trans live.regions, ?_, ?_⟩
  · rw [registers]
  · intro inner deeper
    rw [bus]
    exact (Bus.holdsFrame_congr (before.bus.ram_read _)).mpr
      (live.frames inner (Nat.lt_succ_of_lt deeper))

theorem Unwinds.live {machine later : Machine World} {depth returned : Nat}
    (bounded : depth ≤ 85)
    (plain : ∀ offset < 3 * depth, machine.bus.Plain (machine.slot offset))
    (unwinds : machine.Unwinds depth returned later) (inside : returned ≤ depth) :
    machine.Live (depth - returned) later := by
  induction unwinds with
  | nested => exact ⟨machine.regions_nest depth, rfl, holdsFrame_nest bounded plain⟩
  | handled _ reaches balanced intact inductionHypothesis =>
      exact (inductionHypothesis inside).handled reaches balanced intact
  | @returned returned before _ returns inductionHypothesis =>
      have live := inductionHypothesis (by omega)
      have counted : depth - returned = depth - (returned + 1) + 1 := by omega
      rw [counted] at live
      exact (live.returned (by omega) plain returns).2

/-- Interrupt entry and return are inverse.  The entry of any handler saves the address
at which to resume and the status, changes nothing of the registers but the stack
pointer, the program counter and the interrupt-disable flag, and takes seven cycles; a
return that later finds the frame intact restores stack pointer, address and flags.  Of
up to eighty-five nested NMIs each return restores the machine of the round it belongs
to, and the last one the machine before the first round, which is level zero. -/
theorem return_restores_entry (machine : Machine World) :
    (∀ kind resume, machine.Enters kind resume →
        machine.bus.PlainFrame machine.cpu.registers.sp →
      machine.step.1 = .ok 7 ∧ machine.Entered machine.step.2 kind resume ∧
        ∀ later, machine.step.2.Reaches later → later.RunsA .rti →
          later.cpu.registers.sp = machine.cpu.registers.sp - 3 →
          later.bus.HoldsFrame machine.cpu.registers.sp resume (machine.savedStatus kind) →
          later.step.1 = .ok 6 ∧
            later.step.2.cpu.registers =
              { later.cpu.registers with
                sp := machine.cpu.registers.sp
                pc := resume
                status := machine.cpu.registers.status }) ∧
    (∀ depth ≤ 85, (∀ offset < 3 * depth, machine.bus.Plain (machine.slot offset)) →
      (machine.nest depth).cpu.registers.sp =
          machine.cpu.registers.sp - BitVec.ofNat 8 (3 * depth) ∧
        ∀ returned level later, returned + level + 1 = depth →
          machine.Unwinds depth returned later → later.RunsA .rti →
          later.step.2.cpu.registers =
            { later.cpu.registers with
              sp := (machine.nest level).cpu.registers.sp
              pc := (machine.nest level).cpu.registers.pc
              status := (machine.nest level).cpu.registers.status }) := by
  constructor
  · intro kind resume enters plain
    refine ⟨(step_of_enters enters).1, entered_of_enters enters plain, ?_⟩
    intro later reaches returns below intact
    have same : later.bus.regions = machine.bus.regions :=
      reaches.regions.trans machine.regions_step
    exact step_of_rti_of_entered plain same returns below intact
  · intro depth bounded plain
    refine ⟨machine.sp_nest depth, ?_⟩
    intro returned level later counted unwinds returns
    have live := unwinds.live bounded plain (by omega)
    rw [show depth - returned = level + 1 by omega] at live
    exact (live.returned (by omega) plain returns).1

/-- A machine whose vectors and first cell hold zero bytes but for a return from
interrupt at address zero, and whose next frame wraps inside the stack page. -/
def returningMachine : Machine Unit where
  cpu := { registers := { sp := 0x01, pc := 0x1234, status := { carry := true } }, config := {} }
  bus := { ram := Ram.zero.set 0 0x40, world := () }

theorem returningMachine_restored :
    returningMachine.triggerNmi.Enters .nmi 0x1234 ∧
      returningMachine.triggerNmi.bus.PlainFrame 0x01 ∧
      returningMachine.triggerNmi.step.2.RunsA .rti ∧
      returningMachine.triggerNmi.step.2.step.2.cpu.registers =
        { returningMachine.triggerNmi.step.2.cpu.registers with
          sp := 0x01
          pc := 0x1234
          status := { carry := true } } ∧
      returningMachine.Unwinds 2 1 (returningMachine.nest 2).step.2 ∧
      (returningMachine.nest 2).step.2.RunsA .rti ∧
      (returningMachine.nest 2).step.2.step.2.cpu.registers =
        { (returningMachine.nest 2).step.2.cpu.registers with
          sp := 0x01
          pc := 0x1234
          status := { carry := true } } := by
  have enters : returningMachine.triggerNmi.Enters .nmi 0x1234 := ⟨rfl, rfl⟩
  have plain : returningMachine.triggerNmi.bus.PlainFrame 0x01 := ⟨rfl, rfl, rfl⟩
  have returns : returningMachine.triggerNmi.step.2.RunsA .rti :=
    ⟨{ mnemonic := .rti, mode := .implied, cycles := 6, pagePenalty := false },
      ⟨by decide +kernel, by decide +kernel⟩, rfl⟩
  have returnsInner : (returningMachine.nest 2).RunsA .rti :=
    ⟨{ mnemonic := .rti, mode := .implied, cycles := 6, pagePenalty := false },
      ⟨by decide +kernel, by decide +kernel⟩, rfl⟩
  have returnsOuter : (returningMachine.nest 2).step.2.RunsA .rti :=
    ⟨{ mnemonic := .rti, mode := .implied, cycles := 6, pagePenalty := false },
      ⟨by decide +kernel, by decide +kernel⟩, rfl⟩
  have unwinds : returningMachine.Unwinds 2 1 (returningMachine.nest 2).step.2 :=
    .returned .nested returnsInner
  obtain ⟨-, entered, restored⟩ :=
    (return_restores_entry returningMachine.triggerNmi).1 .nmi 0x1234 enters plain
  obtain ⟨-, outermost⟩ :=
    (return_restores_entry returningMachine).2 2 (by decide) (fun _ _ => rfl)
  exact ⟨enters, plain, returns,
    (restored _ ⟨[], by simp, rfl⟩ returns entered.sp entered.frame).2, unwinds, returnsOuter,
    outermost 1 0 _ rfl unwinds returnsOuter⟩

end Machine

end Nmos6502
