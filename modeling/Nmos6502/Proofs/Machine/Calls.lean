import Nmos6502.Proofs.Instruction.Accesses
import Nmos6502.Proofs.Machine.Steps

/-!
# Calls and returns

A call leaves the address of its own last byte on the stack, and a return goes on one byte behind
the address that it finds there.  With at most 128 calls open no cell of the stack page is used
twice, so their return addresses are all in memory at the same time, the innermost next to the
pointer (`Calling.opened`), and every return goes on behind the call that it ends.
-/

set_option autoImplicit false

namespace Nmos6502

variable {World : Type}

namespace Bus

def PlainStack (bus : Bus World) : Prop := ∀ pointer, bus.Plain (Registers.stackCell pointer)

theorem plainStack_congr {bus other : Bus World} (same : other.regions = bus.regions) :
    other.PlainStack ↔ bus.PlainStack :=
  forall_congr' fun _ => plain_congr same

structure HoldsReturn (bus : Bus World) (pointer : Byte) (address : Word) : Prop where
  high : bus.ram.get (Registers.stackCell pointer) = address.high
  low : bus.ram.get (Registers.stackCell (pointer - 1)) = address.low

theorem holdsReturn_write {bus : Bus World} (plain : bus.PlainStack) (pointer : Byte)
    (address : Word) :
    ((bus.write (Registers.stackCell pointer) address.high).write
      (Registers.stackCell (pointer - 1)) address.low).HoldsReturn pointer address := by
  have apart : pointer ≠ pointer - 1 := by bv_omega
  rw [(plain_write.mpr (plain (pointer - 1))).write, (plain pointer).write]
  constructor
  case high =>
    rw [Ram.get_set_of_ne _ _ (mt Registers.stackCell_injective.mp apart), Ram.get_set_self]
  case low => exact Ram.get_set_self _ _ _

end Bus

namespace Machine

variable {machine : Machine World}

def CallsTo (machine : Machine World) (after : Registers) : Prop :=
  let registers := machine.cpu.registers
  ∃ opcode low high,
    machine.cpu.step.accesses machine.bus =
        [.read registers.pc opcode, .read (registers.pc + 1) low, .read (registers.pc + 2) high,
          .write (Registers.stackCell registers.sp) (registers.pc + 2).high,
          .write (Registers.stackCell (registers.sp - 1)) (registers.pc + 2).low] ∧
      after = { registers with sp := registers.sp - 2, pc := Word.ofBytes high low }

/-- What a call leaves: the address of its last byte lies on the stack, and nothing else has changed
but the stack pointer and the program counter. -/
structure Called (machine after : Machine World) : Prop where
  registers : machine.CallsTo after.cpu.registers
  held : after.bus.HoldsReturn machine.cpu.registers.sp (machine.cpu.registers.pc + 2)
  untouched : ∀ address,
    address ≠ Registers.stackCell machine.cpu.registers.sp →
    address ≠ Registers.stackCell (machine.cpu.registers.sp - 1) →
    after.bus.ram.get address = machine.bus.ram.get address

theorem plainStack_fetched (plain : machine.bus.PlainStack) : machine.fetched.PlainStack :=
  (Bus.plainStack_congr (machine.bus.regions_read _)).mpr plain

theorem callsTo_of_jsr (calls : machine.RunsA .jsr) :
    machine.step.1 = .ok 6 ∧ machine.CallsTo machine.step.2.cpu.registers := by
  have executes := calls.executes rfl
  let low := machine.fetched.read (machine.cpu.registers.pc + 1)
  let high := low.2.read (machine.cpu.registers.pc + 1 + 1)
  have transfers : machine.cpu.step.accesses machine.bus =
      [.read machine.cpu.registers.pc (machine.bus.read machine.cpu.registers.pc).1,
        .read (machine.cpu.registers.pc + 1) low.1,
        .read (machine.cpu.registers.pc + 1 + 1) high.1,
        .write (Registers.stackCell machine.cpu.registers.sp)
          (machine.cpu.registers.pc + 1 + 2 - 1).high,
        .write (Registers.stackCell (machine.cpu.registers.sp - 1))
          (machine.cpu.registers.pc + 1 + 2 - 1).low] := accesses_of_executes executes
  have last : machine.cpu.registers.pc + 1 + 2 - 1 = machine.cpu.registers.pc + 2 := by bv_omega
  have lowered : machine.cpu.registers.sp - 1 - 1 = machine.cpu.registers.sp - 2 :=
    Registers.sub_one_sub_one _
  rw [last, Word.add_one_add_one] at transfers
  rw [CallsTo, step_of_executes executes, ← lowered]
  exact ⟨rfl, _, _, _, transfers, rfl⟩

theorem step_of_jsr (calls : machine.RunsA .jsr) (plain : machine.bus.PlainStack) :
    machine.step.1 = .ok 6 ∧ machine.Called machine.step.2 := by
  obtain ⟨completes, registers⟩ := callsTo_of_jsr calls
  have ⟨opcode, low, high, transfers, _⟩ := registers
  have carries := (step_accesses machine).2
  rw [transfers] at carries
  refine ⟨completes, registers, ?held, ?untouched⟩
  case held =>
    obtain ⟨-, -, -, written⟩ := carries
    rw [written]
    exact Bus.holdsReturn_write ((Bus.plainStack_congr (by simp)).mpr plain) _ _
  case untouched =>
    intro address first second
    refine carries.ram_get fun value member => ?_
    simp only [List.mem_cons, reduceCtorEq, Access.write.injEq, List.not_mem_nil, or_false,
      false_or] at member
    exact member.elim (fun top => first top.1) fun below => second below.1

theorem step_of_rts {pointer : Byte} {address : Word} (returns : machine.RunsA .rts)
    (below : machine.cpu.registers.sp = pointer - 2) (plain : machine.bus.PlainStack)
    (held : machine.bus.HoldsReturn pointer address) :
    machine.step.1 = .ok 6 ∧
      machine.step.2.cpu.registers =
        { machine.cpu.registers with sp := pointer, pc := address + 1 } ∧
      machine.step.2.bus = machine.fetched := by
  have executes := returns.executes rfl
  have first : pointer - 2 + 1 = pointer - 1 := by bv_omega
  have second : pointer - 2 + 2 = pointer := by bv_omega
  have fetchedPlain := plainStack_fetched plain
  have outcome : machine.acted
      { mnemonic := .rts, mode := .implied, cycles := 6, pagePenalty := false } =
        ({ machine.cpu.registers with sp := pointer, pc := address + 1 }, machine.fetched) := by
    simp only [acted, acts, located, Mnemonic.action, Action.execute, Addressing.resolve, behind,
      Registers.advance, Mode.operandLength, Program.bind_eq, Program.pure_eq, Program.run_bind,
      Program.run_done, Registers.run_pullWord, below, first, second]
    rw [(fetchedPlain (pointer - 1)).read]
    dsimp only
    rw [(fetchedPlain pointer).read, fetched, Bus.ram_read, held.high, held.low,
      Word.ofBytes_high_low]
  rw [step_of_executes executes, outcome]
  exact ⟨rfl, rfl, rfl⟩

/-! ## Nested calls -/

/-- Calls and returns in a course of steps, with the callers of the calls that are still open, the
innermost first.  Any other step may come in between that leaves the stack pointer and the stack
page as they are, so none that serves an interrupt. -/
inductive Calling (start : Machine World) : List (Machine World) → Machine World → Prop where
  | started : Calling start [] start
  | called {callers : List (Machine World)} {machine : Machine World}
      (course : Calling start callers machine) (calls : machine.RunsA .jsr)
      (room : callers.length < 128) : Calling start (machine :: callers) machine.step.2
  | returned {caller : Machine World} {callers : List (Machine World)} {machine : Machine World}
      (course : Calling start (caller :: callers) machine) (returns : machine.RunsA .rts) :
      Calling start callers machine.step.2
  | passed {callers : List (Machine World)} {machine : Machine World}
      (course : Calling start callers machine)
      (pointer : machine.step.2.cpu.registers.sp = machine.cpu.registers.sp)
      (page : ∀ pointer, machine.step.2.bus.ram.get (Registers.stackCell pointer) =
        machine.bus.ram.get (Registers.stackCell pointer)) : Calling start callers machine.step.2

def Awaits (bus : Bus World) : Byte → List (Machine World) → Prop
  | _, [] => True
  | pointer, caller :: callers =>
      caller.cpu.registers.sp = pointer + 2 ∧
        bus.HoldsReturn (pointer + 2) (caller.cpu.registers.pc + 2) ∧
        Awaits bus (pointer + 2) callers

theorem Awaits.unchanged {bus other : Bus World} {pointer : Byte} {callers : List (Machine World)}
    (awaits : Awaits bus pointer callers)
    (same : ∀ offset, 0 < offset → offset ≤ 2 * callers.length →
      other.ram.get (Registers.stackCell (pointer + BitVec.ofNat 8 offset)) =
        bus.ram.get (Registers.stackCell (pointer + BitVec.ofNat 8 offset))) :
    Awaits other pointer callers := by
  induction callers generalizing pointer with
  | nil => trivial
  | cons caller callers inductionHypothesis =>
      rw [List.length_cons] at same
      obtain ⟨place, ⟨high, low⟩, outer⟩ := awaits
      have first : pointer + 2 - 1 = pointer + BitVec.ofNat 8 1 := by bv_omega
      refine ⟨place, ⟨?_, ?_⟩, inductionHypothesis outer ?_⟩
      · exact (same 2 (by omega) (by omega)).trans high
      · rw [first] at low ⊢
        exact (same 1 (by omega) (by omega)).trans low
      · intro offset above below
        have cell : pointer + BitVec.ofNat 8 (2 + offset) = pointer + 2 + BitVec.ofNat 8 offset := by
          rw [BitVec.ofNat_add, ← BitVec.add_assoc]
          rfl
        rw [← cell]
        exact same (2 + offset) (by omega) (by omega)

/-- The calls that are open have their return addresses on the stack. -/
structure Open (start : Machine World) (callers : List (Machine World))
    (machine : Machine World) : Prop where
  regions : machine.bus.regions = start.bus.regions
  awaits : Awaits machine.bus machine.cpu.registers.sp callers

theorem Open.called {start : Machine World} {callers : List (Machine World)}
    (plain : start.bus.PlainStack) (opened : Open start callers machine)
    (calls : machine.RunsA .jsr) (room : callers.length < 128) :
    Open start (machine :: callers) machine.step.2 := by
  obtain ⟨-, called⟩ := step_of_jsr calls ((Bus.plainStack_congr opened.regions).mpr plain)
  have lowered : machine.step.2.cpu.registers.sp + 2 = machine.cpu.registers.sp := by
    obtain ⟨opcode, low, high, -, registers⟩ := called.registers
    rw [registers]
    exact BitVec.sub_add_cancel _ _
  refine ⟨machine.regions_step.trans opened.regions, ?_⟩
  rw [Awaits, lowered]
  refine ⟨rfl, called.held, opened.awaits.unchanged fun offset above below => ?_⟩
  -- The open calls fill at most 254 cells above the pointer, which leaves it and the cell below it.
  have here : machine.cpu.registers.sp + BitVec.ofNat 8 offset ≠ machine.cpu.registers.sp := by
    bv_omega
  have next : machine.cpu.registers.sp + BitVec.ofNat 8 offset ≠ machine.cpu.registers.sp - 1 := by
    bv_omega
  exact called.untouched _ (mt Registers.stackCell_injective.mp here)
    (mt Registers.stackCell_injective.mp next)

theorem Open.returned {start caller : Machine World} {callers : List (Machine World)}
    (plain : start.bus.PlainStack) (opened : Open start (caller :: callers) machine)
    (returns : machine.RunsA .rts) :
    (machine.step.1 = .ok 6 ∧
      machine.step.2.cpu.registers =
        { machine.cpu.registers with
          sp := caller.cpu.registers.sp
          pc := caller.cpu.registers.pc + 3 }) ∧
      Open start callers machine.step.2 := by
  obtain ⟨place, held, outer⟩ := opened.awaits
  have below : machine.cpu.registers.sp = machine.cpu.registers.sp + 2 - 2 :=
    (BitVec.add_sub_cancel _ _).symm
  have behind : caller.cpu.registers.pc + 2 + 1 = caller.cpu.registers.pc + 3 := by bv_omega
  obtain ⟨completes, registers, bus⟩ :=
    step_of_rts returns below ((Bus.plainStack_congr opened.regions).mpr plain) held
  rw [behind] at registers
  refine ⟨⟨completes, place ▸ registers⟩, machine.regions_step.trans opened.regions, ?_⟩
  rw [registers]
  refine outer.unchanged fun offset _ _ => ?_
  rw [bus, fetched, Bus.ram_read]

theorem Calling.opened {start : Machine World} {callers : List (Machine World)}
    (plain : start.bus.PlainStack) (calling : Calling start callers machine) :
    Open start callers machine := by
  induction calling with
  | started => exact ⟨rfl, trivial⟩
  | called _ calls room inductionHypothesis => exact inductionHypothesis.called plain calls room
  | returned _ returns inductionHypothesis => exact (inductionHypothesis.returned plain returns).2
  | @passed callers machine _ pointer page inductionHypothesis =>
      refine ⟨machine.regions_step.trans inductionHypothesis.regions, ?_⟩
      rw [pointer]
      exact inductionHypothesis.awaits.unchanged fun offset _ _ => page _

/-- A call goes to its operand and leaves the address of its last byte on the stack, whatever the
stack pointer; a later return that finds that address there goes on behind the call.  In a course of
calls and returns with at most 128 calls open at a time every return ends the innermost one and goes
on behind it. -/
theorem calls_return {machine : Machine World} (plain : machine.bus.PlainStack) :
    (machine.RunsA .jsr →
      machine.step.1 = .ok 6 ∧ machine.Called machine.step.2 ∧
        ∀ later, machine.step.2.Reaches later → later.RunsA .rts →
          later.cpu.registers.sp = machine.cpu.registers.sp - 2 →
          later.bus.HoldsReturn machine.cpu.registers.sp (machine.cpu.registers.pc + 2) →
          later.step.1 = .ok 6 ∧
            later.step.2.cpu.registers =
              { later.cpu.registers with
                sp := machine.cpu.registers.sp
                pc := machine.cpu.registers.pc + 3 }) ∧
      ∀ caller callers later, Calling machine (caller :: callers) later → later.RunsA .rts →
        later.step.1 = .ok 6 ∧
          later.step.2.cpu.registers =
            { later.cpu.registers with
              sp := caller.cpu.registers.sp
              pc := caller.cpu.registers.pc + 3 } := by
  constructor
  · intro calls
    obtain ⟨completes, called⟩ := step_of_jsr calls plain
    refine ⟨completes, called, fun later reaches returns below held => ?_⟩
    have same : later.bus.regions = machine.bus.regions :=
      reaches.regions.trans machine.regions_step
    have behind : machine.cpu.registers.pc + 2 + 1 = machine.cpu.registers.pc + 3 := by bv_omega
    obtain ⟨completes, registers, -⟩ :=
      step_of_rts returns below ((Bus.plainStack_congr same).mpr plain) held
    exact ⟨completes, behind ▸ registers⟩
  · intro caller callers later calling returns
    exact ((calling.opened plain).returned plain returns).1

/-- Two calls of which the second is made by the routine of the first.  The code of the first call
and its return address both go on at the other end of their pages. -/
def callingMachine : Machine Unit where
  cpu := { registers := { sp := 0x00, pc := 0xFFFE }, config := {} }
  bus :=
    { ram := ((Ram.zero.store 0xFFFE [0x20, 0x00, 0x02]).store 0x0200 [0x20, 0x10, 0x02, 0x60]).set
        0x0210 0x60
      world := () }

theorem callingMachine_returns :
    (callingMachine.after 2).cpu.registers.sp = 0xFC ∧
      (callingMachine.after 3).cpu.registers.pc = 0x0203 ∧
      (callingMachine.after 4).cpu.registers.sp = 0x00 ∧
      (callingMachine.after 4).cpu.registers.pc = 0x0001 := by
  have plain : callingMachine.bus.PlainStack := fun _ => rfl
  have callsOuter : callingMachine.RunsA .jsr :=
    ⟨{ mnemonic := .jsr, mode := .absolute, cycles := 6, pagePenalty := false },
      ⟨by decide +kernel, by decide +kernel⟩, rfl⟩
  have callsInner : (callingMachine.after 1).RunsA .jsr :=
    ⟨{ mnemonic := .jsr, mode := .absolute, cycles := 6, pagePenalty := false },
      ⟨by decide +kernel, by decide +kernel⟩, rfl⟩
  have returnsInner : (callingMachine.after 2).RunsA .rts :=
    ⟨{ mnemonic := .rts, mode := .implied, cycles := 6, pagePenalty := false },
      ⟨by decide +kernel, by decide +kernel⟩, rfl⟩
  have returnsOuter : (callingMachine.after 3).RunsA .rts :=
    ⟨{ mnemonic := .rts, mode := .implied, cycles := 6, pagePenalty := false },
      ⟨by decide +kernel, by decide +kernel⟩, rfl⟩
  have nested : Calling callingMachine [callingMachine.after 1, callingMachine]
      (callingMachine.after 2) :=
    .called (.called .started callsOuter (by decide)) callsInner (by decide)
  have reaches : callingMachine.step.2.Reaches (callingMachine.after 3) :=
    ⟨[.step, .step], by simp [Request.KeepsMapping], rfl⟩
  obtain ⟨single, courses⟩ := calls_return plain
  obtain ⟨-, -, back⟩ := single callsOuter
  obtain ⟨-, outer⟩ := back _ reaches returnsOuter (by decide +kernel)
    ⟨by decide +kernel, by decide +kernel⟩
  obtain ⟨-, inner⟩ := courses _ _ _ nested returnsInner
  have routine : (callingMachine.after 1).cpu.registers.pc = 0x0200 := by decide +kernel
  rw [routine] at inner
  exact ⟨by decide +kernel, congrArg (·.pc) inner, congrArg (·.sp) outer, congrArg (·.pc) outer⟩

end Machine

end Nmos6502
