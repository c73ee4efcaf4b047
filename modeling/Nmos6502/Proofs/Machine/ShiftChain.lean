import Nmos6502.Proofs.Alu.Operation
import Nmos6502.Proofs.Alu.Rotation
import Nmos6502.Proofs.Machine.CarryChain
import Nmos6502.Proofs.Machine.StatusBytes
import Nmos6502.Proofs.Machine.Steps

/-!
# Shift chains

Numbers of any length are doubled and halved by a chain of steps, one for each byte, of which every
one starts with the carry that the one before it left (`ShiftChain`).  The first step shifts or
rotates and the others rotate.  A doubling goes from the least significant byte on, a halving from
the most significant one; the bytes may be in the accumulator or in memory, each in its own place.

What one step does is `Shifts.shifted`.  Steps that rotate the byte in one place turn the ring of
that byte and the carry (`Turns.finish_eq`).
-/

set_option autoImplicit false

namespace Nmos6502

def Shift.mnemonic : Shift → Mnemonic
  | left => .asl
  | right => .lsr
  | rotateLeft => .rol
  | rotateRight => .ror

namespace Machine

variable {World : Type}

/-- The next step updates this byte: the one in the cell, or without a cell that in the
accumulator. -/
def Updates (machine : Machine World) : Option Word → Byte → Prop
  | none, value => machine.cpu.registers.a = value
  | some cell, value =>
      ∃ result, [.read cell value, .write cell result] <:+ machine.cpu.step.accesses machine.bus

structure Shifts (operation : Shift) (place : Option Word) (value : Byte)
    (machine : Machine World) : Prop where
  executes : ∃ instruction, machine.Executes instruction ∧
    instruction.mnemonic = operation.mnemonic ∧ (instruction.mode = .accumulator ↔ place = none)
  updates : machine.Updates place value

/-- The byte that the next step writes last, or the accumulator after a step that does not end with
a write. -/
def deposits (machine : Machine World) : Byte :=
  match (machine.cpu.step.accesses machine.bus).getLast? with
  | some (.write _ value) => value
  | _ => machine.leaves

def holds (machine : Machine World) : Option Word → Byte
  | none => machine.cpu.registers.a
  | some cell => machine.bus.ram.get cell

structure Shifted (operation : Shift) (place : Option Word) (value : Byte)
    (machine : Machine World) : Prop where
  completes : ∃ cycles, machine.step.1 = .ok cycles
  result : (machine.deposits, machine.step.2.cpu.registers.status.carry) =
    operation.apply value machine.cpu.registers.status.carry
  accumulator : machine.leaves = if place = none then machine.deposits else machine.cpu.registers.a
  stores : ∀ address byte, .write address byte ∈ machine.cpu.step.accesses machine.bus ↔
    place = some address ∧ byte = machine.deposits
  holds : (∀ cell, place = some cell → machine.bus.Plain cell) →
    machine.holds place = value ∧ machine.step.2.holds place = machine.deposits
  shows : machine.step.2.cpu.registers.status.Shows machine.deposits
  keeps : ∀ flag ∈ [Flag.overflow, .irqDisable, .decimal],
    machine.step.2.cpu.registers.status.get flag = machine.cpu.registers.status.get flag

/-! ## One step -/

section

variable {operation : Shift} {place : Option Word} {value : Byte} {machine : Machine World}
  {instruction : Instruction}

theorem exists_shifts (executes : machine.Executes instruction)
    (mnemonic : instruction.mnemonic = operation.mnemonic) :
    ∃ place value, machine.Shifts operation place value := by
  obtain ⟨front, data, address, split, -, transfers⟩ := accesses_eq_append executes
  by_cases accumulator : instruction.mode = .accumulator
  · exact ⟨none, _, ⟨instruction, executes, mnemonic, iff_of_true accumulator rfl⟩, rfl⟩
  · obtain ⟨cell, value, result, -, rfl⟩ : ∃ cell value result, address = some cell ∧
        data = [.read cell value, .write cell result] := by
      obtain ⟨mnemonic, mode, cycles, penalty⟩ := instruction
      subst mnemonic
      cases operation <;> exact (if_neg accumulator).mp transfers
    exact ⟨some cell, value, ⟨instruction, executes, mnemonic,
      iff_of_false accumulator (Option.some_ne_none cell)⟩, result, front, split.symm⟩

theorem computes_shift {before after : Registers} {transfers : List Access}
    (mnemonic : instruction.mnemonic = operation.mnemonic)
    (values : instruction.Computes before after transfers) :
    if instruction.mode = .accumulator then
      (after.a = (operation.apply before.a before.status.carry).1 ∧ after.status.Shows after.a) ∧
        after.status.carry = (operation.apply before.a before.status.carry).2
    else
      ∃ cell value,
        [.read cell value, .write cell (operation.apply value before.status.carry).1] <:+
            transfers ∧
          after.status.Shows (operation.apply value before.status.carry).1 ∧
          after.status.carry = (operation.apply value before.status.carry).2 := by
  obtain ⟨mnemonic, mode, cycles, penalty⟩ := instruction
  subst mnemonic
  cases operation with
  | left | right => exact values
  | rotateLeft =>
      simp only [Shift.apply_rotateLeft]
      exact values
  | rotateRight =>
      simp only [Shift.apply_rotateRight]
      exact values

theorem deposits_of_unwritten
    (unwritten : ∀ address byte, .write address byte ∉ machine.cpu.step.accesses machine.bus) :
    machine.deposits = machine.leaves := by
  unfold deposits
  split
  · rename_i address byte last
    exact absurd (List.mem_of_getLast? last) (unwritten address byte)
  · rfl

theorem deposits_of_update {cell : Word} {byte result : Byte}
    (last : [.read cell byte, .write cell result] <:+ machine.cpu.step.accesses machine.bus) :
    machine.deposits = result := by
  obtain ⟨front, split⟩ := last
  simp [deposits, ← split]

theorem ram_get_of_update {cell : Word} {byte result : Byte} {front : List Access}
    (split : machine.cpu.step.accesses machine.bus =
      front ++ [.read cell byte, .write cell result])
    (quiet : ∀ address value, .write address value ∉ front) (plain : machine.bus.Plain cell) :
    machine.bus.ram.get cell = byte ∧ machine.step.2.bus.ram.get cell = result := by
  have carries := machine.step_accesses.2
  rw [split] at carries
  obtain ⟨middle, before, answered, written⟩ := carries.append
  have after : machine.step.2.bus = (middle.read cell).2.write cell result := written
  have located := (Bus.plain_congr before.regions).mpr plain
  rw [located.read] at answered after
  constructor
  · rw [← answered, before.ram_get (quiet cell)]
  · rw [after, located.write, Ram.get_set_self]

theorem Shifts.keeps (shifts : machine.Shifts operation place value) :
    ∀ flag ∈ [Flag.overflow, .irqDisable, .decimal],
      machine.step.2.cpu.registers.status.get flag = machine.cpu.registers.status.get flag := by
  obtain ⟨⟨instruction, executes, mnemonic, -⟩, -⟩ := shifts
  obtain ⟨-, ⟨-, -, flags, -⟩, -⟩ := step_effect executes
  have changed : instruction.mnemonic.flags = [.negative, .zero, .carry] := by
    rw [mnemonic]
    cases operation <;> rfl
  rw [changed] at flags
  intro flag member
  refine flags flag ?_
  revert flag
  decide

theorem Shifts.shifted_accumulator (shifts : machine.Shifts operation none value) :
    machine.Shifted operation none value := by
  have keeps := shifts.keeps
  obtain ⟨⟨⟨_, mode, cycles, penalty⟩, executes, rfl, accumulator⟩, rfl⟩ := shifts
  obtain ⟨completes, ⟨-, -, -, values⟩, -⟩ := step_effect executes
  obtain ⟨front, data, address, split, quiet, transfers⟩ := accesses_eq_append executes
  have inPlace : mode = .accumulator := accumulator.mpr rfl
  obtain ⟨⟨moved, shows⟩, carry⟩ := (if_pos inPlace).mp (computes_shift rfl values)
  have silent : data = [] := by
    cases operation <;> exact (if_pos inPlace).mp transfers
  rw [silent, List.append_nil] at split
  rw [← split] at quiet
  have deposits := deposits_of_unwritten quiet
  constructor
  case completes => exact completes
  case result => exact Prod.ext (deposits.trans moved) carry
  case accumulator => rw [if_pos rfl, deposits]
  case stores => exact fun address byte => iff_of_false (quiet address byte) (by simp)
  case holds => exact fun _ => ⟨rfl, deposits.symm⟩
  case shows => rwa [deposits]
  case keeps => exact keeps

theorem Shifts.shifted_cell {cell : Word} (shifts : machine.Shifts operation (some cell) value) :
    machine.Shifted operation (some cell) value := by
  have keeps := shifts.keeps
  obtain ⟨⟨⟨_, mode, cycles, penalty⟩, executes, rfl, accumulator⟩, result, found⟩ := shifts
  obtain ⟨completes, ⟨registers, -, -, values⟩, -⟩ := step_effect executes
  obtain ⟨front, data, address, split, quiet, transfers⟩ := accesses_eq_append executes
  have inMemory : mode ≠ .accumulator := mt accumulator.mp (Option.some_ne_none cell)
  have destinations :
      Instruction.destinations ⟨operation.mnemonic, mode, cycles, penalty⟩ = [] := by
    cases operation <;> exact if_neg inMemory
  obtain ⟨other, byte, last, shows, carry⟩ := (if_neg inMemory).mp (computes_shift rfl values)
  obtain ⟨same, -⟩ := List.cons.inj (suffix_unique found last rfl)
  obtain ⟨rfl, rfl⟩ := Access.read.inj same
  obtain ⟨place, old, new, -, rfl⟩ : ∃ place old new, address = some place ∧
      data = [.read place old, .write place new] := by
    cases operation <;> exact (if_neg inMemory).mp transfers
  have ends : [.read place old, .write place new] <:+ machine.cpu.step.accesses machine.bus :=
    ⟨front, split.symm⟩
  rw [suffix_unique ends last rfl] at split
  have deposits := deposits_of_update last
  constructor
  case completes => exact completes
  case result => exact Prod.ext deposits carry
  case accumulator =>
    rw [if_neg (Option.some_ne_none cell)]
    exact registers .a (by decide) (by simp [destinations])
  case stores =>
    intro address byte
    rw [split, deposits]
    simp [quiet, eq_comm]
  case holds =>
    intro plain
    rw [deposits]
    exact ram_get_of_update split quiet (plain cell rfl)
  case shows => rwa [deposits]
  case keeps => exact keeps

theorem Shifts.shifted (shifts : machine.Shifts operation place value) :
    machine.Shifted operation place value := by
  cases place with
  | none => exact shifts.shifted_accumulator
  | some cell => exact shifts.shifted_cell

end

/-! ## The chain -/

/-- A chain of steps from this carry on to the last machine, each of which shifts one of the bytes;
the first step does so by the operation, and the others rotate in the same direction. -/
inductive ShiftChain : Shift → Bool → List Byte → List (Machine World) → Machine World → Prop where
  | last {operation : Shift} {carry : Bool} {place : Option Word} {value : Byte}
      {machine : Machine World} (starts : machine.cpu.registers.status.carry = carry)
      (shifts : machine.Shifts operation place value) :
      ShiftChain operation carry [value] [machine] machine.step.2
  | link {operation : Shift} {carry : Bool} {place : Option Word} {value : Byte}
      {machine : Machine World} {values : List Byte} {machines : List (Machine World)}
      {final : Machine World} (starts : machine.cpu.registers.status.carry = carry)
      (shifts : machine.Shifts operation place value)
      (follows : ShiftChain operation.rotation machine.step.2.cpu.registers.status.carry values
        machines final) :
      ShiftChain operation carry (value :: values) (machine :: machines) final

section

open Alu

variable {operation : Shift} {place : Option Word} {value : Byte} {machine : Machine World}

theorem Shifts.double (shifts : machine.Shifts operation place value)
    (leftward : operation.rotation = .rotateLeft) :
    2 * value.toNat + (operation.entering machine.cpu.registers.status.carry).toNat =
      machine.deposits.toNat + 256 * machine.step.2.cpu.registers.status.carry.toNat := by
  have law := Shift.double leftward value machine.cpu.registers.status.carry
  rwa [← shifts.shifted.result] at law

theorem Shifts.halve (shifts : machine.Shifts operation place value)
    (rightward : operation.rotation = .rotateRight) :
    value.toNat + 256 * (operation.entering machine.cpu.registers.status.carry).toNat =
      2 * machine.deposits.toNat + machine.step.2.cpu.registers.status.carry.toNat := by
  have law := Shift.halve rightward value machine.cpu.registers.status.carry
  rwa [← shifts.shifted.result] at law

namespace ShiftChain

variable {carry : Bool} {values : List Byte} {machines : List (Machine World)}
  {final : Machine World}

theorem double (chain : ShiftChain operation carry values machines final)
    (leftward : operation.rotation = .rotateLeft) :
    2 * number 256 BitVec.toNat values + (operation.entering carry).toNat =
      number 256 BitVec.toNat (machines.map deposits) +
        256 ^ machines.length * final.cpu.registers.status.carry.toNat := by
  induction chain with
  | last starts shifts =>
      have first := shifts.double leftward
      rw [starts] at first
      simpa [number] using first
  | @link operation carry place value machine values machines final starts shifts follows
      inductionHypothesis =>
      have first := shifts.double leftward
      have others := inductionHypothesis (by rw [Shift.rotation_rotation, leftward])
      rw [Shift.entering_rotation] at others
      rw [starts] at first
      have power : 256 ^ (machines.length + 1) * final.cpu.registers.status.carry.toNat =
          256 * (256 ^ machines.length * final.cpu.registers.status.carry.toNat) := by ring
      rw [List.map_cons, List.length_cons, number_cons, number_cons, power]
      omega

theorem completes (chain : ShiftChain operation carry values machines final) :
    ∀ machine ∈ machines, ∃ cycles, machine.step.1 = .ok cycles := by
  induction chain with
  | last _ shifts => exact List.forall_mem_singleton.mpr shifts.shifted.completes
  | link _ shifts _ inductionHypothesis =>
      exact List.forall_mem_cons.mpr ⟨shifts.shifted.completes, inductionHypothesis⟩

theorem length_eq (chain : ShiftChain operation carry values machines final) :
    values.length = machines.length := by
  induction chain with
  | last _ _ => rfl
  | link _ _ _ inductionHypothesis => exact congrArg (· + 1) inductionHypothesis

theorem number_reverse_cons (high : Byte) (rest : List Byte) :
    number 256 BitVec.toNat (high :: rest).reverse =
      number 256 BitVec.toNat rest.reverse + 256 ^ rest.length * high.toNat := by
  rw [number, number, List.reverse_cons, List.map_append, Nat.ofDigits_append, List.length_map,
    List.length_reverse, List.map_singleton, Nat.ofDigits_singleton]

theorem halve (chain : ShiftChain operation carry values machines final)
    (rightward : operation.rotation = .rotateRight) :
    number 256 BitVec.toNat values.reverse +
        256 ^ machines.length * (operation.entering carry).toNat =
      2 * number 256 BitVec.toNat (machines.map deposits).reverse +
        final.cpu.registers.status.carry.toNat := by
  induction chain with
  | last starts shifts =>
      have first := shifts.halve rightward
      rw [starts] at first
      simpa [number] using first
  | @link operation carry place value machine values machines final starts shifts follows
      inductionHypothesis =>
      have first := shifts.halve rightward
      have others := inductionHypothesis (by rw [Shift.rotation_rotation, rightward])
      rw [Shift.entering_rotation] at others
      rw [starts] at first
      rw [List.map_cons, number_reverse_cons, number_reverse_cons, List.length_cons, List.length_map,
        follows.length_eq, pow_succ]
      calc number 256 BitVec.toNat values.reverse + 256 ^ machines.length * value.toNat +
            256 ^ machines.length * 256 * (operation.entering carry).toNat
          = number 256 BitVec.toNat values.reverse +
              256 ^ machines.length * (value.toNat + 256 * (operation.entering carry).toNat) := by
            ring
        _ = number 256 BitVec.toNat values.reverse +
              256 ^ machines.length * machine.step.2.cpu.registers.status.carry.toNat +
              2 * (256 ^ machines.length * machine.deposits.toNat) := by
            rw [first]
            ring
        _ = 2 * (number 256 BitVec.toNat (machines.map deposits).reverse +
              256 ^ machines.length * machine.deposits.toNat) +
              final.cpu.registers.status.carry.toNat := by
            rw [others]
            ring

theorem ne_nil (chain : ShiftChain operation carry values machines final) : machines ≠ [] := by
  cases chain <;> exact List.cons_ne_nil _ _

theorem half_and_carry (chain : ShiftChain operation carry values machines final)
    (rightward : operation.rotation = .rotateRight) :
    let total := number 256 BitVec.toNat values.reverse
    number 256 BitVec.toNat (machines.map deposits).reverse =
        total / 2 + (operation.entering carry).toNat * 2 ^ (8 * machines.length - 1) ∧
      final.cpu.registers.status.carry.toNat = total % 2 := by
  intro total
  have law := chain.halve rightward
  have one := final.cpu.registers.status.carry.toNat_lt
  have modulus : 256 ^ machines.length = 2 * 2 ^ (8 * machines.length - 1) := by
    have some := List.length_pos_of_ne_nil chain.ne_nil
    rw [← pow_succ', Nat.sub_add_cancel (by omega), pow_mul]
    rfl
  rw [modulus, Nat.mul_assoc, Nat.mul_comm (2 ^ _)] at law
  omega

end ShiftChain

end

/-! ## One place -/

/-- Steps that rotate what is in one place: each finds there the byte that the one before it left,
and the carry that it left. -/
inductive Turns (World : Type) (place : Option Word) :
    List Shift → Shift.Carried → Shift.Carried → Prop where
  | done (state : Shift.Carried) : Turns World place [] state state
  | turn {operation : Shift} {operations : List Shift} {machine : Machine World} {value : Byte}
      {finish : Shift.Carried} (shifts : machine.Shifts operation place value)
      (rest : Turns World place operations
        (machine.deposits, machine.step.2.cpu.registers.status.carry) finish) :
      Turns World place (operation :: operations) (value, machine.cpu.registers.status.carry) finish

theorem Turns.finish_eq {place : Option Word} {operations : List Shift}
    {start finish : Shift.Carried} (turns : Turns World place operations start finish) :
    finish = Shift.turnAll operations start := by
  induction turns with
  | done _ => rfl
  | turn shifts _ inductionHypothesis =>
      rw [inductionHypothesis, shifts.shifted.result]
      rfl

theorem turns_of_steps {place : Option Word} {operations : List Shift} {machine : Machine World}
    (plain : ∀ cell, place = some cell → machine.bus.Plain cell)
    (shifts : ∀ index (within : index < operations.length),
      ∃ value, (machine.after index).Shifts operations[index] place value) :
    Turns World place operations
      (machine.holds place, machine.cpu.registers.status.carry)
      ((machine.after operations.length).holds place,
        (machine.after operations.length).cpu.registers.status.carry) := by
  induction operations generalizing machine with
  | nil => exact .done _
  | cons operation rest inductionHypothesis =>
      obtain ⟨value, first⟩ : ∃ value, machine.Shifts operation place value :=
        shifts 0 (Nat.zero_lt_succ _)
      obtain ⟨before, after⟩ := first.shifted.holds plain
      have unmoved : ∀ cell, place = some cell → machine.step.2.bus.Plain cell :=
        fun cell here => (Bus.plain_congr machine.regions_step).mpr (plain cell here)
      have others := inductionHypothesis unmoved fun index within => by
        rw [← after_succ]
        exact shifts (index + 1) (Nat.succ_lt_succ within)
      rw [after] at others
      rw [before, List.length_cons, after_succ]
      exact .turn first others

/-- A chain of shifts to the left doubles a number of any length and one to the right halves it; the
bit that enters is the carry, or zero if the first step is a plain shift, and the bit that leaves is
the last carry.  Rotations of one place, back and forth or all the way round, restore the byte and
the carry. -/
theorem shift_chain :
    (∀ {machine : Machine World} {operation : Shift} {instruction : Instruction},
        machine.Executes instruction → instruction.mnemonic = operation.mnemonic →
          ∃ place value, machine.Shifts operation place value) ∧
      (∀ {machine : Machine World} {operation : Shift} {place : Option Word} {value : Byte},
        machine.Shifts operation place value → machine.Shifted operation place value) ∧
      (∀ {operation : Shift} {carry : Bool} {values : List Byte} {machines : List (Machine World)}
          {final : Machine World}, ShiftChain operation carry values machines final →
        (∀ machine ∈ machines, ∃ cycles, machine.step.1 = .ok cycles) ∧
          (operation.rotation = .rotateLeft →
            Alu.number 256 BitVec.toNat (machines.map deposits) +
                final.cpu.registers.status.carry.toNat * 256 ^ machines.length =
              2 * Alu.number 256 BitVec.toNat values + (operation.entering carry).toNat) ∧
          (operation.rotation = .rotateRight →
            let total := Alu.number 256 BitVec.toNat values.reverse
            Alu.number 256 BitVec.toNat (machines.map deposits).reverse =
                total / 2 + (operation.entering carry).toNat * 2 ^ (8 * machines.length - 1) ∧
              final.cpu.registers.status.carry.toNat = total % 2)) ∧
      (∀ operations ∈ [[.rotateLeft, .rotateRight], [.rotateRight, .rotateLeft],
          List.replicate 9 .rotateLeft, List.replicate 9 .rotateRight],
        Shift.Restoring operations) ∧
      (∀ {place : Option Word} {operations : List Shift} {start finish : Shift.Carried},
        Shift.Restoring operations → Turns World place operations start finish →
          finish = start) ∧
      ∀ {machine : Machine World} {place : Option Word} {operations : List Shift},
        Shift.Restoring operations → (∀ cell, place = some cell → machine.bus.Plain cell) →
          (∀ index (within : index < operations.length),
            ∃ value, (machine.after index).Shifts operations[index] place value) →
          (machine.after operations.length).holds place = machine.holds place ∧
            (machine.after operations.length).cpu.registers.status.carry =
              machine.cpu.registers.status.carry := by
  refine ⟨exists_shifts, Shifts.shifted, ?_, Shift.restoring_of_mem, ?_, ?_⟩
  · intro operation carry values machines final chain
    refine ⟨chain.completes, fun leftward => ?_, chain.half_and_carry⟩
    rw [chain.double leftward, Nat.mul_comm]
  · intro place operations start finish restoring turns
    rw [turns.finish_eq, Shift.turnAll_eq_self restoring]
  · intro machine place operations restoring plain shifts
    have finish := (turns_of_steps plain shifts).finish_eq
    rw [Shift.turnAll_eq_self restoring] at finish
    exact Prod.mk.inj finish

def shiftingMachine (program : List Byte) (a : Byte) (carry : Bool) : Machine Unit where
  cpu := { registers := { a, status := { carry } }, config := {} }
  bus := { ram := Ram.zero.store 0 program, world := () }

theorem shifts_of_accumulator {operation : Shift} {value : Byte} {machine : Machine World}
    (executes : machine.Executes ⟨operation.mnemonic, .accumulator, 2, false⟩)
    (accumulator : machine.cpu.registers.a = value) : machine.Shifts operation none value :=
  ⟨⟨_, executes, rfl, iff_of_true rfl rfl⟩, accumulator⟩

/-- Two chains double and halve $0180, and a rotation each way restores $80. -/
theorem shiftingMachine_doubles :
    Alu.number 256 BitVec.toNat
        ([shiftingMachine [0x0A] 0x80 true, shiftingMachine [0x2A] 0x01 true].map deposits) =
        0x0300 ∧
      Alu.number 256 BitVec.toNat
        ([shiftingMachine [0x4A] 0x01 true, shiftingMachine [0x6A] 0x80 true].map
          deposits).reverse = 0x00C0 ∧
      (shiftingMachine [0x2A, 0x6A] 0x80 true).step.2.cpu.registers.a = 0x01 ∧
      ((shiftingMachine [0x2A, 0x6A] 0x80 true).after 2).cpu.registers.a = 0x80 := by
  obtain ⟨-, -, numbers, restoring, -, steps⟩ := @shift_chain Unit
  have shiftsLeft : (shiftingMachine [0x0A] 0x80 true).Shifts .left none 0x80 :=
    shifts_of_accumulator ⟨by decide +kernel, by decide +kernel⟩ rfl
  have rotatesLeft : (shiftingMachine [0x2A] 0x01 true).Shifts .rotateLeft none 0x01 :=
    shifts_of_accumulator ⟨by decide +kernel, by decide +kernel⟩ rfl
  have shiftsRight : (shiftingMachine [0x4A] 0x01 true).Shifts .right none 0x01 :=
    shifts_of_accumulator ⟨by decide +kernel, by decide +kernel⟩ rfl
  have rotatesRight : (shiftingMachine [0x6A] 0x80 true).Shifts .rotateRight none 0x80 :=
    shifts_of_accumulator ⟨by decide +kernel, by decide +kernel⟩ rfl
  have forth : ∃ value,
      ((shiftingMachine [0x2A, 0x6A] 0x80 true).after 0).Shifts .rotateLeft none value :=
    ⟨_, shifts_of_accumulator ⟨by decide +kernel, by decide +kernel⟩ rfl⟩
  have back : ∃ value,
      ((shiftingMachine [0x2A, 0x6A] 0x80 true).after 1).Shifts .rotateRight none value :=
    ⟨_, shifts_of_accumulator ⟨by decide +kernel, by decide +kernel⟩ rfl⟩
  have both : ∀ index (within : index < 2),
      ∃ value, ((shiftingMachine [0x2A, 0x6A] 0x80 true).after index).Shifts
        [Shift.rotateLeft, .rotateRight][index] none value
    | 0, _ => forth
    | 1, _ => back
  have doubled := (numbers (.link rfl shiftsLeft (.last (by decide +kernel) rotatesLeft))).2.1 rfl
  have halved := (numbers (.link rfl shiftsRight (.last (by decide +kernel) rotatesRight))).2.2 rfl
  have carryless : (shiftingMachine [0x2A] 0x01 true).step.2.cpu.registers.status.carry = false := by
    decide +kernel
  rw [carryless] at doubled
  refine ⟨doubled, halved.1, by decide +kernel, ?_⟩
  exact (steps (restoring _ (List.mem_cons_self ..))
    (fun _ missing => absurd missing (Option.some_ne_none _).symm) both).1

end Machine

end Nmos6502
