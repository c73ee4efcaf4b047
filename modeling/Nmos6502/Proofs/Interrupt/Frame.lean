import Nmos6502.Proofs.Machine.Reach
import Nmos6502.Proofs.Machine.Stack

/-!
# Interrupt frames

An NMI, an IRQ and a software break save the same frame: the address at which the
interrupted program resumes and the status byte, in the three cells from the stack
pointer downward.  A return from interrupt that finds the frame intact restores all
that the frame holds, whatever happened in between.
-/

set_option autoImplicit false

namespace Nmos6502

namespace Status

theorem pushed_ofBits (byte : Byte) : (ofBits byte).pushed true = byte ||| 0x30 := by
  revert byte
  decide +kernel

theorem pushed_true (status : Status) : status.pushed true = status.bits ||| 0x30 := by
  have same := pushed_ofBits status.bits
  rwa [ofBits_bits] at same

theorem pushed_false (status : Status) : status.pushed false = (status.bits ||| 0x20) &&& 0xEF := by
  have same := bits_ofBits status.bits
  rwa [ofBits_bits] at same

end Status

/-- The one form of each instruction that enters a routine or leaves it. -/
def Mnemonic.linkage : Mnemonic → Option Instruction
  | brk => some { mnemonic := .brk, mode := .implied, cycles := 7, pagePenalty := false }
  | rti => some { mnemonic := .rti, mode := .implied, cycles := 6, pagePenalty := false }
  | jsr => some { mnemonic := .jsr, mode := .absolute, cycles := 6, pagePenalty := false }
  | rts => some { mnemonic := .rts, mode := .implied, cycles := 6, pagePenalty := false }
  | _ => none

theorem eq_of_linkage : ∀ opcode : Byte, ∀ instruction ∈ decode opcode,
    ∀ row ∈ instruction.mnemonic.linkage, instruction = row := by
  decide +kernel

namespace Machine

variable {World : Type}

def RunsA (machine : Machine World) (mnemonic : Mnemonic) : Prop :=
  ∃ instruction, machine.Executes instruction ∧ instruction.mnemonic = mnemonic

theorem RunsA.executes {machine : Machine World} {mnemonic : Mnemonic} {row : Instruction}
    (runs : machine.RunsA mnemonic) (only : mnemonic.linkage = some row) :
    machine.Executes row := by
  obtain ⟨instruction, executes, rfl⟩ := runs
  rwa [← eq_of_linkage _ instruction executes.2 row only]

/-- The next step enters the handler of this interrupt, and the interrupted program
is to resume at this address: an interrupt that is served, or a software break, which
skips the byte after its opcode. -/
def Enters (machine : Machine World) (kind : Interrupt) (resume : Word) : Prop :=
  match kind with
  | .nmi | .irq => machine.cpu.Requests kind ∧ resume = machine.cpu.registers.pc
  | .brk => machine.RunsA .brk ∧ resume = machine.cpu.registers.pc + 2
  | .reset => False

def entryFetch (machine : Machine World) : Interrupt → List Access
  | .brk => [.read machine.cpu.registers.pc (machine.bus.read machine.cpu.registers.pc).1]
  | _ => []

def entryBus (machine : Machine World) : Interrupt → Bus World
  | .brk => machine.fetched
  | _ => machine.bus

/-- The saved status byte: the live status with bit five set, and with bit four set for
a software break alone. -/
def savedStatus (machine : Machine World) (kind : Interrupt) : Byte :=
  if kind = .brk then machine.cpu.registers.status.bits ||| 0x30
  else (machine.cpu.registers.status.bits ||| 0x20) &&& 0xEF

structure Entered (machine after : Machine World) (kind : Interrupt) (resume : Word) : Prop where
  frame : after.bus.HoldsFrame machine.cpu.registers.sp resume (machine.savedStatus kind)
  transfers : ∃ low high,
    machine.cpu.step.accesses machine.bus =
        machine.entryFetch kind ++
          [.write (Registers.stackCell machine.cpu.registers.sp) resume.high,
            .write (Registers.stackCell (machine.cpu.registers.sp - 1)) resume.low,
            .write (Registers.stackCell (machine.cpu.registers.sp - 2)) (machine.savedStatus kind),
            .read kind.vector low, .read (kind.vector + 1) high] ∧
      after.cpu.registers.pc = Word.ofBytes high low
  plainVector : machine.bus.Plain kind.vector → machine.bus.Plain (kind.vector + 1) →
    after.cpu.registers.pc =
      Word.ofBytes (machine.bus.ram.get (kind.vector + 1)) (machine.bus.ram.get kind.vector)
  a : after.cpu.registers.a = machine.cpu.registers.a
  x : after.cpu.registers.x = machine.cpu.registers.x
  y : after.cpu.registers.y = machine.cpu.registers.y
  status : after.cpu.registers.status = { machine.cpu.registers.status with irqDisable := true }
  sp : after.cpu.registers.sp = machine.cpu.registers.sp - 3
  untouched : ∀ address,
    address ≠ Registers.stackCell machine.cpu.registers.sp →
    address ≠ Registers.stackCell (machine.cpu.registers.sp - 1) →
    address ≠ Registers.stackCell (machine.cpu.registers.sp - 2) →
    after.bus.ram.get address = machine.bus.ram.get address

theorem acted_of_brk {machine : Machine World} {instruction : Instruction}
    (executes : machine.Executes instruction) (isBreak : instruction.mnemonic = .brk) :
    machine.cyclesOf instruction = 7 ∧
      machine.located instruction.mode = (.none, machine.fetched) ∧
      machine.acts instruction =
        ({ machine.cpu.registers with pc := machine.cpu.registers.pc + 2 } : Registers).enter
          .brk := by
  have row := eq_of_linkage _ instruction executes.2 _ (congrArg Mnemonic.linkage isBreak)
  subst row
  refine ⟨rfl, rfl, ?_⟩
  simp [acts, Mnemonic.action, Action.execute, behind, Registers.advance, Mode.operandLength,
    BitVec.add_assoc]

/-- Every entry is the same program, run from the bus that the fetch left if there was
one. -/
theorem step_of_enters {machine : Machine World} {kind : Interrupt} {resume : Word}
    (enters : machine.Enters kind resume) :
    machine.step.1 = .ok 7 ∧
      (machine.step.2.cpu.registers, machine.step.2.bus) =
        (({ machine.cpu.registers with pc := resume } : Registers).enter kind).run
          (machine.entryBus kind) ∧
      machine.cpu.step.accesses machine.bus =
        machine.entryFetch kind ++
          (({ machine.cpu.registers with pc := resume } : Registers).enter kind).accesses
            (machine.entryBus kind) := by
  cases kind with
  | nmi | irq =>
      obtain ⟨requests, rfl⟩ := enters
      rw [step_of_requests requests, accesses_of_requests requests]
      exact ⟨rfl, Prod.eta _, rfl⟩
  | reset => exact enters.elim
  | brk =>
      obtain ⟨breaks, rfl⟩ := enters
      have executes := breaks.executes rfl
      obtain ⟨cycles, located, acts⟩ := acted_of_brk executes rfl
      have resolved : (Addressing.resolve .implied
          (machine.cpu.registers.advance 1)).accesses machine.fetched = [] := rfl
      rw [step_of_executes executes, accesses_of_executes executes, cycles, acted, acts, located,
        resolved]
      exact ⟨rfl, Prod.eta _, rfl⟩

theorem regions_entryBus (machine : Machine World) (kind : Interrupt) :
    (machine.entryBus kind).regions = machine.bus.regions := by
  cases kind <;> first | rfl | exact machine.bus.regions_read _

theorem ram_entryBus (machine : Machine World) (kind : Interrupt) :
    (machine.entryBus kind).ram = machine.bus.ram := by
  cases kind <;> first | rfl | exact machine.bus.ram_read _

theorem pushed_eq_savedStatus (machine : Machine World) (kind : Interrupt) :
    machine.cpu.registers.status.pushed (kind == .brk) = machine.savedStatus kind := by
  cases kind with
  | brk =>
      rw [savedStatus, if_pos rfl, ← Status.pushed_true]
      rfl
  | nmi | irq | reset =>
      rw [savedStatus, if_neg (by decide), ← Status.pushed_false]
      rfl

theorem entered_of_enters {machine : Machine World} {kind : Interrupt} {resume : Word}
    (enters : machine.Enters kind resume)
    (plain : machine.bus.PlainFrame machine.cpu.registers.sp) :
    machine.Entered machine.step.2 kind resume := by
  obtain ⟨-, outcome, transfers⟩ := step_of_enters enters
  rw [Registers.run_enter, pushed_eq_savedStatus] at outcome
  rw [Registers.accesses_enter, pushed_eq_savedStatus] at transfers
  obtain ⟨registers, bus⟩ := Prod.mk.inj outcome
  have plainEntry := (Bus.plainFrame_congr (machine.regions_entryBus kind)).mpr plain
  constructor
  case frame =>
    rw [bus]
    exact (Bus.holdsFrame_congr (Program.ram_readWord _ _)).mpr
      (Bus.holdsFrame_saveFrame plainEntry _ _)
  case transfers =>
    rw [transfers, registers]
    exact ⟨_, _, rfl, rfl⟩
  case plainVector =>
    intro low high
    have same := (Bus.regions_saveFrame (machine.entryBus kind) machine.cpu.registers.sp resume
      (machine.savedStatus kind)).trans (machine.regions_entryBus kind)
    have apart := Registers.vector_ne_stackCell kind
    rw [registers, Program.run_readWord_of_plain ((Bus.plain_congr same).mpr low)
      ((Bus.plain_congr same).mpr high),
      Bus.ram_get_saveFrame_of_ne _ _ _ (apart _).1 (apart _).1 (apart _).1,
      Bus.ram_get_saveFrame_of_ne _ _ _ (apart _).2 (apart _).2 (apart _).2, ram_entryBus]
  case untouched =>
    intro address first second third
    rw [bus, Program.ram_readWord, Bus.ram_get_saveFrame_of_ne _ _ _ first second third,
      ram_entryBus]
  all_goals rw [registers]

/-! ## The return -/

theorem step_of_rti {machine : Machine World} {pointer : Byte} {resume : Word} {saved : Byte}
    (returns : machine.RunsA .rti) (below : machine.cpu.registers.sp = pointer - 3)
    (plain : machine.bus.PlainFrame pointer)
    (intact : machine.bus.HoldsFrame pointer resume saved) :
    machine.step.1 = .ok 6 ∧
      machine.step.2.cpu.registers =
        { machine.cpu.registers with
          sp := pointer
          pc := resume
          status := Status.ofBits saved } ∧
      machine.step.2.bus = machine.fetched := by
  have executes := returns.executes rfl
  have first : pointer - 3 + 1 = pointer - 2 := by bv_omega
  have second : pointer - 2 + 1 = pointer - 1 := by bv_omega
  have third : pointer - 2 + 2 = pointer := by bv_omega
  obtain ⟨plainHigh, plainLow, plainStatus⟩ :=
    (Bus.plainFrame_congr (machine.bus.regions_read machine.cpu.registers.pc)).mpr plain
  obtain ⟨high, low, status⟩ :=
    (Bus.holdsFrame_congr (machine.bus.ram_read machine.cpu.registers.pc)).mpr intact
  have outcome : machine.acted
      { mnemonic := .rti, mode := .implied, cycles := 6, pagePenalty := false } =
        ({ machine.cpu.registers with
            sp := pointer
            pc := resume
            status := Status.ofBits saved }, machine.fetched) := by
    simp only [acted, acts, located, Mnemonic.action, Action.execute, Addressing.resolve, behind,
      Registers.advance, Mode.operandLength, Program.bind_eq, Program.pure_eq, Program.run_bind,
      Program.run_done, Registers.run_pull, Registers.run_pullWord, below, first, second, third]
    rw [fetched, plainStatus.read]
    dsimp only
    rw [plainLow.read]
    dsimp only
    rw [plainHigh.read, status, low, high, Word.ofBytes_high_low]
  rw [step_of_executes executes, outcome]
  exact ⟨rfl, rfl, rfl⟩

theorem step_of_rti_of_entered {machine later : Machine World} {kind : Interrupt} {resume : Word}
    (plain : machine.bus.PlainFrame machine.cpu.registers.sp)
    (same : later.bus.regions = machine.bus.regions) (returns : later.RunsA .rti)
    (below : later.cpu.registers.sp = machine.cpu.registers.sp - 3)
    (intact : later.bus.HoldsFrame machine.cpu.registers.sp resume (machine.savedStatus kind)) :
    later.step.1 = .ok 6 ∧
      later.step.2.cpu.registers =
        { later.cpu.registers with
          sp := machine.cpu.registers.sp
          pc := resume
          status := machine.cpu.registers.status } := by
  have restored : Status.ofBits (machine.savedStatus kind) = machine.cpu.registers.status := by
    rw [← pushed_eq_savedStatus, Status.ofBits_pushed]
  obtain ⟨completes, registers, -⟩ :=
    step_of_rti returns below ((Bus.plainFrame_congr same).mpr plain) intact
  rw [restored] at registers
  exact ⟨completes, registers⟩

end Machine

end Nmos6502
