import Nmos6502.Instruction.Execution
import Nmos6502.Proofs.Bus.Transfers

/-!
# Words and frames on the hardware stack

Each stack program, from a push to the entry of an interrupt handler, is given with
its registers, its bus and its transfers, all in terms of the stack pointer before
it.  The pointer wraps inside its page, so no statement has a bound on it.
-/

set_option autoImplicit false

namespace Nmos6502

namespace Registers

variable {World : Type}

theorem sub_one_sub_one (pointer : Byte) : pointer - 1 - 1 = pointer - 2 := by bv_omega

theorem sub_two_sub_one (pointer : Byte) : pointer - 2 - 1 = pointer - 3 := by bv_omega

theorem add_one_add_one (pointer : Byte) : pointer + 1 + 1 = pointer + 2 := by bv_omega

theorem add_one_thrice (pointer : Byte) : pointer + 1 + 1 + 1 = pointer + 3 := by bv_omega

theorem accesses_push (registers : Registers) (value : Byte) (bus : Bus World) :
    (registers.push value).accesses bus = [.write (stackCell registers.sp) value] := rfl

theorem accesses_pull (registers : Registers) (bus : Bus World) :
    registers.pull.accesses bus =
      [.read (stackCell (registers.sp + 1)) (bus.read (stackCell (registers.sp + 1))).1] := rfl

theorem run_pushWord (registers : Registers) (value : Word) (bus : Bus World) :
    (registers.pushWord value).run bus =
      ({ registers with sp := registers.sp - 2 },
        (bus.write (stackCell registers.sp) value.high).write
          (stackCell (registers.sp - 1)) value.low) := by
  simp only [pushWord, Program.bind_eq, Program.run_bind, run_push, sub_one_sub_one]
  rfl

theorem accesses_pushWord (registers : Registers) (value : Word) (bus : Bus World) :
    (registers.pushWord value).accesses bus =
      [.write (stackCell registers.sp) value.high,
        .write (stackCell (registers.sp - 1)) value.low] := rfl

theorem run_pullWord (registers : Registers) (bus : Bus World) :
    registers.pullWord.run bus =
      let low := bus.read (stackCell (registers.sp + 1))
      let high := low.2.read (stackCell (registers.sp + 2))
      ((Word.ofBytes high.1 low.1, { registers with sp := registers.sp + 2 }), high.2) := by
  simp only [pullWord, Program.bind_eq, Program.run_bind, run_pull, add_one_add_one,
    Program.pure_eq, Program.run_done]

theorem accesses_pullWord (registers : Registers) (bus : Bus World) :
    registers.pullWord.accesses bus =
      let low := bus.read (stackCell (registers.sp + 1))
      let high := low.2.read (stackCell (registers.sp + 2))
      [.read (stackCell (registers.sp + 1)) low.1,
        .read (stackCell (registers.sp + 2)) high.1] := by
  simp only [pullWord, Program.bind_eq, Program.accesses_bind, run_pull, accesses_pull,
    add_one_add_one, Program.pure_eq, Program.accesses_done, List.append_nil, List.cons_append,
    List.nil_append]

end Registers

namespace Bus

variable {World : Type}

def saveFrame (bus : Bus World) (pointer : Byte) (resume : Word) (saved : Byte) : Bus World :=
  ((bus.write (Registers.stackCell pointer) resume.high).write
    (Registers.stackCell (pointer - 1)) resume.low).write (Registers.stackCell (pointer - 2)) saved

/-- The memory holds a saved address and status byte from the pointer downward. -/
def HoldsFrame (bus : Bus World) (pointer : Byte) (resume : Word) (saved : Byte) : Prop :=
  bus.ram.get (Registers.stackCell pointer) = resume.high ∧
    bus.ram.get (Registers.stackCell (pointer - 1)) = resume.low ∧
    bus.ram.get (Registers.stackCell (pointer - 2)) = saved

def PlainFrame (bus : Bus World) (pointer : Byte) : Prop :=
  bus.Plain (Registers.stackCell pointer) ∧ bus.Plain (Registers.stackCell (pointer - 1)) ∧
    bus.Plain (Registers.stackCell (pointer - 2))

theorem plainFrame_congr {bus other : Bus World} (same : other.regions = bus.regions)
    {pointer : Byte} : other.PlainFrame pointer ↔ bus.PlainFrame pointer := by
  simp only [PlainFrame, plain_congr same]

@[simp] theorem regions_saveFrame (bus : Bus World) (pointer : Byte) (resume : Word)
    (saved : Byte) : (bus.saveFrame pointer resume saved).regions = bus.regions := by
  simp [saveFrame]

theorem holdsFrame_congr {bus other : Bus World} (same : other.ram = bus.ram)
    {pointer : Byte} {resume : Word} {saved : Byte} :
    other.HoldsFrame pointer resume saved ↔ bus.HoldsFrame pointer resume saved := by
  simp only [HoldsFrame, same]

theorem holdsFrame_saveFrame {bus : Bus World} {pointer : Byte} (plain : bus.PlainFrame pointer)
    (resume : Word) (saved : Byte) :
    (bus.saveFrame pointer resume saved).HoldsFrame pointer resume saved := by
  obtain ⟨first, second, third⟩ := plain
  have firstSecond : pointer ≠ pointer - 1 := by bv_omega
  have firstThird : pointer ≠ pointer - 2 := by bv_omega
  have secondThird : pointer - 1 ≠ pointer - 2 := by bv_omega
  have stored : (bus.saveFrame pointer resume saved).ram =
      ((bus.ram.set (Registers.stackCell pointer) resume.high).set
        (Registers.stackCell (pointer - 1)) resume.low).set
          (Registers.stackCell (pointer - 2)) saved := by
    rw [saveFrame, (plain_write.mpr (plain_write.mpr third)).write,
      (plain_write.mpr second).write, first.write]
  simp only [HoldsFrame, stored, Ram.get_set, Registers.stackCell_injective, firstSecond,
    firstThird, secondThird, if_true, if_false, and_self]

theorem ram_get_saveFrame_of_ne (bus : Bus World) {pointer : Byte} {address : Word}
    (resume : Word) (saved : Byte) (first : address ≠ Registers.stackCell pointer)
    (second : address ≠ Registers.stackCell (pointer - 1))
    (third : address ≠ Registers.stackCell (pointer - 2)) :
    (bus.saveFrame pointer resume saved).ram.get address = bus.ram.get address := by
  rw [saveFrame, ram_get_write_of_ne _ _ third, ram_get_write_of_ne _ _ second,
    ram_get_write_of_ne _ _ first]

end Bus

namespace Registers

variable {World : Type}

theorem vector_ne_stackCell (kind : Interrupt) (pointer : Byte) :
    kind.vector ≠ stackCell pointer ∧ kind.vector + 1 ≠ stackCell pointer := by
  have pages : kind.vector.high = 0xFF ∧ (kind.vector + 1).high = 0xFF := by
    cases kind <;> decide
  have page : (stackCell pointer).high = 0x01 := Word.high_ofBytes _ _
  constructor
  · intro same
    rw [same, page] at pages
    exact absurd pages.1 (by decide)
  · intro same
    rw [same, page] at pages
    exact absurd pages.2 (by decide)

theorem run_enter (registers : Registers) (kind : Interrupt) (bus : Bus World) :
    (registers.enter kind).run bus =
      let saved := bus.saveFrame registers.sp registers.pc (registers.status.pushed (kind == .brk))
      let target := (Program.readWord kind.vector).run saved
      ({ registers with
          sp := registers.sp - 3
          pc := target.1
          status := { registers.status with irqDisable := true } }, target.2) := by
  simp only [enter, Program.bind_eq, Program.run_bind, run_pushWord, run_push, sub_two_sub_one,
    Program.pure_eq, Program.run_done, stackAddress, Bus.saveFrame]

theorem accesses_enter (registers : Registers) (kind : Interrupt) (bus : Bus World) :
    (registers.enter kind).accesses bus =
      [.write (stackCell registers.sp) registers.pc.high,
          .write (stackCell (registers.sp - 1)) registers.pc.low,
          .write (stackCell (registers.sp - 2)) (registers.status.pushed (kind == .brk))] ++
        (Program.readWord kind.vector).accesses
          (bus.saveFrame registers.sp registers.pc (registers.status.pushed (kind == .brk))) := by
  simp only [enter, Program.bind_eq, Program.accesses_bind, accesses_pushWord, accesses_push,
    run_pushWord, run_push, stackAddress, Bus.saveFrame, Program.pure_eq, Program.accesses_done,
    List.append_nil, List.cons_append, List.nil_append]

end Registers

end Nmos6502
