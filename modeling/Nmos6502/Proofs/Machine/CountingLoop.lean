import Nmos6502.Proofs.Machine.StraightLine

/-!
# A loop that counts down

A count is loaded into X, and a branch goes back to the decrement until X is zero.  One round is two
steps, and after it the machine is what `counting` says: the count has gone down by one, time has
passed, and everything else is as it was.  A count of zero wraps at the first decrement, so it
stands for 256.

The cycles of a run are not added up apart from it.  They are read off the cycle counter of the
machine that is left (`Completes.cycles_after`).
-/

set_option autoImplicit false

namespace Nmos6502

variable {World : Type}

theorem Bus.HoldsImage.read {bus : Bus World} {start : Word} {image : List Byte}
    (held : bus.HoldsImage start image) {offset : Nat} {value : Byte}
    (found : image[offset]? = some value) :
    bus.read (start + BitVec.ofNat 16 offset) = (value, bus) := by
  obtain ⟨within, rfl⟩ := List.getElem?_eq_some_iff.mp found
  obtain ⟨plain, cell⟩ := held offset within
  rw [plain.read, cell]

namespace Machine

/-! ## The code -/

/-- LDX of the count, DEX, and BNE back to DEX. -/
def countdown (count : Byte) : List Byte := [0xA2, count, 0xCA, 0xD0, 0xFD]

def loadCount : Instruction :=
  { mnemonic := .ldx, mode := .immediate, cycles := 2, pagePenalty := false }

def decrement : Instruction :=
  { mnemonic := .dex, mode := .implied, cycles := 2, pagePenalty := false }

def branchBack : Instruction :=
  { mnemonic := .bne, mode := .relative, cycles := 2, pagePenalty := true }

theorem decode_countdown :
    decode 0xA2 = some loadCount ∧ decode 0xCA = some decrement ∧
      decode 0xD0 = some branchBack := by
  decide +kernel

/-- The machine with a count in X, at a place behind where it was, so many cycles later. -/
def counting (machine : Machine World) (count : Byte) (offset : Nat) (cycles : Nat) :
    Machine World :=
  { machine with
    cpu :=
      { machine.cpu with
        registers :=
          { machine.cpu.registers with
            x := count
            pc := machine.cpu.registers.pc + BitVec.ofNat 16 offset
            status := machine.cpu.registers.status.describing count }
        cycles := machine.cpu.cycles + cycles } }

def backCrosses (machine : Machine World) : Bool :=
  (machine.cpu.registers.pc + 5).high != (machine.cpu.registers.pc + 2).high

theorem mul_backCrosses (machine : Machine World) (times : Nat) :
    times * machine.backCrosses.toNat =
      if (machine.cpu.registers.pc + 2).high ≠ (machine.cpu.registers.pc + 5).high then times
      else 0 := by
  rw [backCrosses]
  split
  case isTrue differ => rw [bne_iff_ne.mpr differ.symm, Bool.toNat_true, Nat.mul_one]
  case isFalse same =>
    rw [Classical.not_not.mp same, bne_self_eq_false, Bool.toNat_false, Nat.mul_zero]

theorem executes_of_read (machine : Machine World) {opcode : Byte} {instruction : Instruction}
    (idle : machine.cpu.Idle)
    (read : machine.bus.read machine.cpu.registers.pc = (opcode, machine.bus))
    (documented : decode opcode = some instruction) :
    machine.Executes instruction ∧ machine.fetched = machine.bus := by
  rw [Executes, fetched, read]
  exact ⟨⟨idle, documented⟩, rfl⟩

theorem behind_counting (machine : Machine World) (count : Byte) (offset cycles : Nat)
    (mode : Mode) :
    (machine.counting count offset cycles).behind mode =
      (machine.counting count (offset + (1 + mode.operandLength)) cycles).cpu.registers := by
  have place : machine.cpu.registers.pc + BitVec.ofNat 16 offset +
        BitVec.ofNat 16 (1 + mode.operandLength) =
      machine.cpu.registers.pc + BitVec.ofNat 16 (offset + (1 + mode.operandLength)) := by
    rw [BitVec.add_assoc, ← BitVec.ofNat_add]
  rw [behind_eq]
  exact congrArg (fun pc => { (machine.counting count offset cycles).cpu.registers with pc }) place

theorem step_counting {machine : Machine World} {instruction : Instruction} {count next : Byte}
    {offset further cycles more : Nat}
    (executes : (machine.counting count offset cycles).Executes instruction)
    (acted : (machine.counting count offset cycles).acted instruction =
      ((machine.counting next further cycles).cpu.registers, machine.bus))
    (time : (machine.counting count offset cycles).cyclesOf instruction = more) :
    (machine.counting count offset cycles).step =
      (.ok more, machine.counting next further (cycles + more)) := by
  rw [step_of_executes executes, acted, time]
  simp only [counting, Nat.add_assoc]

/-! ## Steps -/

section Steps

variable {machine : Machine World} {count : Byte}
variable (held : machine.bus.HoldsImage machine.cpu.registers.pc (countdown count))
variable (idle : machine.cpu.Idle)
include held idle

theorem step_load : machine.step = (.ok 2, machine.counting count 2 2) := by
  have opcode := held.read (show (countdown count)[0]? = some 0xA2 from rfl)
  have operand : machine.bus.read (machine.cpu.registers.pc + 1) = (count, machine.bus) :=
    held.read (show (countdown count)[1]? = some count from rfl)
  rw [BitVec.add_zero] at opcode
  obtain ⟨executes, fetched⟩ := machine.executes_of_read idle opcode decode_countdown.1
  have acted : machine.acted loadCount =
      ((machine.counting count 2 2).cpu.registers, machine.bus) := by
    change ((Program.readByte (machine.cpu.registers.pc + 1)).bind fun value =>
      .done ((machine.behind .immediate).put .x value)).run machine.fetched = _
    rw [fetched, Program.run_bind, Program.run_readByte, operand, behind_eq]
    rfl
  rw [step_of_executes executes, acted]
  rfl

theorem step_decrement (left : Byte) (cycles : Nat) :
    (machine.counting left 2 cycles).step =
      (.ok 2, machine.counting (left - 1) 3 (cycles + 2)) := by
  have opcode : (machine.counting left 2 cycles).bus.read
      (machine.counting left 2 cycles).cpu.registers.pc = (0xCA, machine.bus) :=
    held.read (show (countdown count)[2]? = some 0xCA from rfl)
  obtain ⟨executes, fetched⟩ :=
    (machine.counting left 2 cycles).executes_of_read idle opcode decode_countdown.2.1
  have acted : (machine.counting left 2 cycles).acted decrement =
      ((machine.counting (left - 1) 3 cycles).cpu.registers, machine.bus) := by
    change (((machine.counting left 2 cycles).behind .implied).put .x
      (((machine.counting left 2 cycles).behind .implied).x - 1),
        (machine.counting left 2 cycles).fetched) = _
    rw [fetched, behind_counting]
    rfl
  exact step_counting executes acted rfl

theorem executes_branchBack (left : Byte) (cycles : Nat) :
    (machine.counting left 3 cycles).Executes branchBack ∧
      (machine.counting left 3 cycles).located .relative =
        ({ address := some (machine.cpu.registers.pc + 2), pageCrossed := machine.backCrosses },
          machine.bus) := by
  have opcode : (machine.counting left 3 cycles).bus.read
      (machine.counting left 3 cycles).cpu.registers.pc = (0xD0, machine.bus) :=
    held.read (show (countdown count)[3]? = some 0xD0 from rfl)
  obtain ⟨executes, fetched⟩ :=
    (machine.counting left 3 cycles).executes_of_read idle opcode decode_countdown.2.2
  have distance := held.read (show (countdown count)[4]? = some 0xFD from rfl)
  have place : machine.cpu.registers.pc + BitVec.ofNat 16 3 + 1 =
      machine.cpu.registers.pc + BitVec.ofNat 16 4 := BitVec.add_assoc ..
  have next : machine.cpu.registers.pc + BitVec.ofNat 16 4 + 1 =
      machine.cpu.registers.pc + 5 := BitVec.add_assoc ..
  have target : machine.cpu.registers.pc + 5 + (0xFD : Byte).signExtend 16 =
      machine.cpu.registers.pc + 2 := BitVec.add_assoc ..
  have untouched : (machine.counting left 3 cycles).fetched = machine.bus := fetched
  refine ⟨executes, ?_⟩
  change ((Program.readByte (machine.cpu.registers.pc + BitVec.ofNat 16 3 + 1)).bind
    fun displacement => .done (Operand.branchTarget
      (machine.cpu.registers.pc + BitVec.ofNat 16 3 + 1 + 1) displacement)).run
        (machine.counting left 3 cycles).fetched = _
  rw [untouched, Program.run_bind, Program.run_readByte, place, distance, next, Program.run_done,
    Operand.branchTarget, target, backCrosses]

theorem step_back {left : Byte} (more : left ≠ 0) (cycles : Nat) :
    (machine.counting left 3 cycles).step =
      (.ok (3 + machine.backCrosses.toNat),
        machine.counting left 2 (cycles + (3 + machine.backCrosses.toNat))) := by
  obtain ⟨executes, located⟩ := executes_branchBack held idle left cycles
  have counts : (machine.counting left 3 cycles).cpu.registers.status.get .zero = false :=
    beq_eq_false_iff_ne.mpr more
  have time : (machine.counting left 3 cycles).cyclesOf branchBack =
      3 + machine.backCrosses.toNat := by
    rw [cyclesOf_of_branch executes rfl, counts]
    change 2 + (1 + ((machine.counting left 3 cycles).located .relative).1.pageCrossed.toNat) = _
    rw [located, ← Nat.add_assoc]
  have acted : (machine.counting left 3 cycles).acted branchBack =
      ((machine.counting left 2 cycles).cpu.registers, machine.bus) := by
    rw [acted_of_branch rfl, counts]
    change (((machine.counting left 3 cycles).behind .relative).jump
      ((machine.counting left 3 cycles).located .relative).1,
        ((machine.counting left 3 cycles).located .relative).2) = _
    rw [located, behind_counting]
    rfl
  exact step_counting executes acted time

theorem step_out (cycles : Nat) :
    (machine.counting 0 3 cycles).step = (.ok 2, machine.counting 0 5 (cycles + 2)) := by
  obtain ⟨executes, located⟩ := executes_branchBack held idle 0 cycles
  have counted : (machine.counting 0 3 cycles).cpu.registers.status.get .zero = true := rfl
  have time : (machine.counting 0 3 cycles).cyclesOf branchBack = 2 := by
    rw [cyclesOf_of_branch executes rfl, counted]
    rfl
  have acted : (machine.counting 0 3 cycles).acted branchBack =
      ((machine.counting 0 5 cycles).cpu.registers, machine.bus) := by
    rw [acted_of_branch rfl, counted]
    change ((machine.counting 0 3 cycles).behind .relative,
        ((machine.counting 0 3 cycles).located .relative).2) = _
    rw [located, behind_counting]
    rfl
  exact step_counting executes acted time

end Steps

/-! ## Rounds -/

/-- How often the count goes down until it is zero. -/
def rounds (count : Byte) : Nat := if count = 0 then 256 else count.toNat

theorem rounds_pos (count : Byte) : 0 < rounds count := by
  unfold rounds
  split
  · decide
  · rename_i more
    exact Nat.pos_of_ne_zero fun zero => more (BitVec.eq_of_toNat_eq zero)

theorem sub_rounds (count : Byte) : count - BitVec.ofNat 8 (rounds count) = 0 := by
  unfold rounds
  split
  · rename_i zero
    rw [zero]
    rfl
  · rw [BitVec.ofNat_toNat, BitVec.setWidth_eq]
    exact BitVec.sub_self count

theorem sub_ne_zero_of_lt_rounds {count : Byte} {index : Nat} (pos : 0 < index)
    (before : index < rounds count) : count - BitVec.ofNat 8 index ≠ 0 := by
  intro zero
  have same := congrArg BitVec.toNat zero
  have bound := count.isLt
  rw [BitVec.toNat_sub, BitVec.toNat_ofNat, show (0 : Byte).toNat = 0 from rfl] at same
  unfold rounds at before
  split at before
  · rename_i wraps
    have nothing : count.toNat = 0 := congrArg BitVec.toNat wraps
    omega
  · omega

section Rounds

variable {machine : Machine World} {count : Byte}
variable (held : machine.bus.HoldsImage machine.cpu.registers.pc (countdown count))
variable (idle : machine.cpu.Idle)
include held idle

theorem after_decrement {index : Nat}
    (round : machine.after (1 + 2 * index) =
      machine.counting (count - BitVec.ofNat 8 index) 2
        (2 + index * (5 + machine.backCrosses.toNat))) :
    machine.after (2 + 2 * index) =
      machine.counting (count - BitVec.ofNat 8 (index + 1)) 3
        (2 + index * (5 + machine.backCrosses.toNat) + 2) := by
  have next : 2 + 2 * index = 1 + 2 * index + 1 := by omega
  have less : count - BitVec.ofNat 8 index - 1 = count - BitVec.ofNat 8 (index + 1) := by
    rw [BitVec.sub_sub, BitVec.ofNat_add]
    rfl
  rw [next, after, round, step_decrement held idle, less]

/-- Before each round the count has gone down once for each of the rounds before it. -/
theorem after_rounds {index : Nat} (before : index < rounds count) :
    machine.after (1 + 2 * index) =
      machine.counting (count - BitVec.ofNat 8 index) 2
        (2 + index * (5 + machine.backCrosses.toNat)) := by
  induction index with
  | zero =>
      rw [Nat.mul_zero, after, after, step_load held idle, Nat.zero_mul]
      exact congrArg (machine.counting · 2 2) (BitVec.sub_zero count).symm
  | succ index inductionHypothesis =>
      have decremented := after_decrement held idle (inductionHypothesis (Nat.lt_of_succ_lt before))
      have more := sub_ne_zero_of_lt_rounds (Nat.succ_pos index) before
      have next : 1 + 2 * (index + 1) = 2 + 2 * index + 1 := by omega
      have sum : 2 + index * (5 + machine.backCrosses.toNat) + 2 +
          (3 + machine.backCrosses.toNat) =
            2 + (index + 1) * (5 + machine.backCrosses.toNat) := by
        rw [Nat.succ_mul]
        omega
      rw [next, after, decremented, step_back held idle more, sum]

theorem after_countdown :
    machine.after (1 + 2 * rounds count) =
      machine.counting 0 5
        (5 * rounds count + 1 + (rounds count - 1) * machine.backCrosses.toNat) := by
  obtain ⟨index, last⟩ := Nat.exists_eq_add_one_of_ne_zero (Nat.ne_of_gt (rounds_pos count))
  have within : index < rounds count := last ▸ Nat.lt_succ_self index
  have zero := sub_rounds count
  have decremented := after_decrement held idle (after_rounds held idle within)
  have next : 1 + 2 * (index + 1) = 2 + 2 * index + 1 := by omega
  have sum : 2 + index * (5 + machine.backCrosses.toNat) + 2 + 2 =
      5 * (index + 1) + 1 + (index + 1 - 1) * machine.backCrosses.toNat := by
    rw [Nat.mul_add, Nat.add_sub_cancel]
    omega
  rw [last] at zero ⊢
  rw [next, after, decremented, zero, step_out held idle, sum]

theorem step_in_countdown {earlier : Nat} (before : earlier < 1 + 2 * rounds count) :
    (∃ cycles, (machine.after earlier).step.1 = .ok cycles) ∧
      ∃ offset < 5, (machine.after earlier).cpu.registers.pc =
        machine.cpu.registers.pc + BitVec.ofNat 16 offset := by
  have split : earlier = 0 ∨
      ∃ index < rounds count, earlier = 1 + 2 * index ∨ earlier = 2 + 2 * index := by
    rcases earlier with _ | more
    · exact Or.inl rfl
    · exact Or.inr ⟨more / 2, by omega, by omega⟩
  obtain rfl | ⟨index, within, rfl | rfl⟩ := split
  · have loaded := step_load held idle
    exact ⟨⟨2, congrArg Prod.fst loaded⟩, 0, by decide, (BitVec.add_zero _).symm⟩
  · rw [after_rounds held idle within, step_decrement held idle]
    exact ⟨⟨2, rfl⟩, 2, by decide, rfl⟩
  · rw [after_decrement held idle (after_rounds held idle within)]
    refine ⟨?_, 3, by decide, rfl⟩
    by_cases zero : count - BitVec.ofNat 8 (index + 1) = 0
    · rw [zero, step_out held idle]
      exact ⟨2, rfl⟩
    · rw [step_back held idle zero]
      exact ⟨_, rfl⟩

end Rounds

/-- A loop that counts down from any byte is left after as many rounds as it takes to come to zero,
in a time that follows from the count and from where the code lies.  Nothing is changed but X, the
two flags that describe it, the program counter and the cycle counter. -/
theorem countdown_runs {machine : Machine World} {count : Byte} (idle : machine.cpu.Idle)
    (held : machine.bus.HoldsImage machine.cpu.registers.pc (countdown count)) :
    let start := machine.cpu.registers.pc
    let steps := 1 + 2 * rounds count
    let total := 5 * rounds count + 1 +
      if (start + 2).high ≠ (start + 5).high then rounds count - 1 else 0
    (∀ earlier < steps, ∃ offset < 5,
        (machine.after earlier).cpu.registers.pc = start + BitVec.ofNat 16 offset) ∧
      machine.runSteps steps =
        (.ok total,
          { machine with
            cpu :=
              { machine.cpu with
                registers :=
                  { machine.cpu.registers with
                    x := 0
                    pc := start + 5
                    status :=
                      { machine.cpu.registers.status with zero := true, negative := false } }
                cycles := machine.cpu.cycles + total } }) := by
  intro start steps total
  have completes : machine.Completes steps := fun earlier before =>
    (step_in_countdown held idle before).1
  have last := after_countdown held idle
  have spent := completes.cycles_after
  rw [mul_backCrosses] at last
  rw [last] at spent
  refine ⟨fun earlier before => (step_in_countdown held idle before).2, ?_⟩
  rw [runSteps_of_completes completes, last, ← Nat.add_left_cancel spent]
  rfl

/-- The count is zero, and the last byte of the code is the last of the memory. -/
def countingMachine : Machine Unit where
  cpu := { registers := { pc := 0xFFFB }, config := {} }
  bus := { ram := Ram.zero.store 0xFFFB (countdown 0x00), world := () }

theorem countingMachine_leaves :
    (countingMachine.runSteps 513).1 = .ok 1536 ∧
      (countingMachine.runSteps 513).2.cpu.registers.pc = 0x0000 := by
  have idle : countingMachine.cpu.Idle := by decide
  have held : countingMachine.bus.HoldsImage 0xFFFB (countdown 0x00) := by
    intro offset within
    refine ⟨rfl, ?_⟩
    revert offset
    decide +kernel
  obtain ⟨-, run⟩ := countdown_runs idle held
  have steps : 1 + 2 * rounds 0x00 = 513 := rfl
  rw [steps] at run
  rw [run]
  exact ⟨rfl, rfl⟩

end Machine

end Nmos6502
