import Mathlib.Data.List.Forall2
import Nmos6502.Proofs.Alu.Binary
import Nmos6502.Proofs.Alu.Decimal

/-!
# Carry chains

Numbers of any length are added and subtracted by a chain of steps, one for each byte, of which
every one starts with the carry that the one before it left (`CarryChain`).  Nothing else has to
link them: between two steps a program may load the next byte, move its pointers and so on.

`Reckons` says of a machine that its next step is a link: it adds or subtracts an operand, in
whichever mode, in binary or in decimal.  A link obeys the law of one digit, and by induction on
the chain the whole number obeys the same law (`CarryChain.total`), from which
`binary_chain` and `decimal_chain` read off the result and the flags.
-/

set_option autoImplicit false

namespace Nmos6502

def Alu.Operation.mnemonic : Alu.Operation → Mnemonic
  | addition => .adc
  | subtraction => .sbc

namespace Machine

open Alu

variable {World : Type}

/-- The next step applies the operation to these terms.  The operand is the byte that the step
reads last. -/
structure Reckons (operation : Operation) (decimal : Bool) (terms : Terms)
    (machine : Machine World) : Prop where
  executes : ∃ instruction, machine.Executes instruction ∧
    instruction.mnemonic = operation.mnemonic
  obeys : (machine.cpu.config.decimalMode && machine.cpu.registers.status.decimal) = decimal
  accumulator : machine.cpu.registers.a = terms.accumulator
  operand : ∃ cell, [.read cell terms.operand] <:+ machine.cpu.step.accesses machine.bus

def leaves (machine : Machine World) : Byte := machine.step.2.cpu.registers.a

/-- Each machine starts with the carry that the step of the one before it left, the first with
the carry given, and the last of them steps to the machine at the end. -/
inductive CarryChain : Bool → List (Machine World) → Machine World → Prop where
  | last {carry : Bool} {machine : Machine World}
      (starts : machine.cpu.registers.status.carry = carry) :
      CarryChain carry [machine] machine.step.2
  | link {carry : Bool} {machine : Machine World} {rest : List (Machine World)}
      {final : Machine World} (starts : machine.cpu.registers.status.carry = carry)
      (follows : CarryChain machine.step.2.cpu.registers.status.carry rest final) :
      CarryChain carry (machine :: rest) final

/-! ## One link -/

section

variable {operation : Operation} {decimal : Bool} {terms : Terms} {machine : Machine World}
  {instruction : Instruction}

theorem acts_of_mnemonic (mnemonic : instruction.mnemonic = operation.mnemonic) :
    machine.acts instruction =
      ((machine.located instruction.mode).1.fetch (machine.behind instruction.mode)).bind
        fun value => .done ((machine.behind instruction.mode).accumulate
          (operation.apply
            (machine.cpu.config.decimalMode && machine.cpu.registers.status.decimal)
            { accumulator := machine.cpu.registers.a, operand := value }
            machine.cpu.registers.status)) := by
  rw [acts, mnemonic]
  cases operation <;> rfl

theorem usesCell_of_mnemonic (mnemonic : instruction.mnemonic = operation.mnemonic) :
    instruction.mnemonic.usesCell = true := by
  rw [mnemonic]
  cases operation <;> rfl

theorem Reckons.acted (reckons : machine.Reckons operation decimal terms) :
    ∃ instruction, machine.Executes instruction ∧
      (machine.acted instruction).1 = (machine.behind instruction.mode).accumulate
        (operation.apply decimal terms machine.cpu.registers.status) := by
  obtain ⟨⟨instruction, executes, mnemonic⟩, obeys, accumulator, cell, front, ends⟩ := reckons
  obtain ⟨location, address⟩ := (fits_located executes).cell (usesCell_of_mnemonic mnemonic)
  have operand : ((machine.located instruction.mode).2.read location).1 = terms.operand := by
    rw [accesses_of_executes executes, acts_of_mnemonic mnemonic,
      Operand.accesses_fetch_done address, ← List.cons_append] at ends
    have last := List.append_inj_right' ends rfl
    exact (Access.read.inj (List.head_eq_of_cons_eq last)).2.symm
  refine ⟨instruction, executes, ?_⟩
  rw [Machine.acted, acts_of_mnemonic mnemonic, Program.run_bind, Operand.run_fetch address,
    Program.run_done, operand, obeys, accumulator]

theorem Reckons.step (reckons : machine.Reckons operation decimal terms) :
    (∃ cycles, machine.step.1 = .ok cycles) ∧
      machine.leaves = (operation.apply decimal terms machine.cpu.registers.status).value ∧
      machine.step.2.cpu.registers.status =
        (operation.apply decimal terms machine.cpu.registers.status).status := by
  obtain ⟨instruction, executes, acted⟩ := reckons.acted
  rw [leaves, step_of_executes executes, acted]
  exact ⟨⟨_, rfl⟩, rfl, rfl⟩

def Yields (operation : Operation) (base : Nat) (digit : Byte → Nat) (terms : Terms)
    (machine : Machine World) : Prop :=
  digit machine.leaves < base ∧
    operation.total (digit terms.accumulator) (digit terms.operand)
        machine.cpu.registers.status.carry =
      digit machine.leaves + base * operation.unit machine.step.2.cpu.registers.status.carry

theorem Reckons.total_binary (reckons : machine.Reckons operation false terms) :
    operation.total terms.accumulator.toNat terms.operand.toNat
        machine.cpu.registers.status.carry =
      machine.leaves.toNat + 256 * operation.unit machine.step.2.cpu.registers.status.carry := by
  obtain ⟨-, value, status⟩ := reckons.step
  rw [value, status]
  exact operation.total_binary terms _

theorem Reckons.yields_binary (reckons : machine.Reckons operation false terms) :
    Yields operation 256 BitVec.toNat terms machine :=
  ⟨machine.leaves.isLt, reckons.total_binary⟩

theorem Reckons.yields_decimal (reckons : machine.Reckons operation true terms)
    (valid : IsDecimal terms.accumulator ∧ IsDecimal terms.operand) :
    IsDecimal machine.leaves ∧ Yields operation 100 decimalValue terms machine := by
  obtain ⟨-, value, status⟩ := reckons.step
  obtain ⟨decimal, total⟩ :=
    operation.total_decimal machine.cpu.registers.status valid.1 valid.2
  rw [← value] at decimal total
  rw [← status] at total
  exact ⟨decimal, decimal.value_lt, total⟩

end

/-! ## The chain -/

theorem forall_of_paired {α β : Type} {property : β → Prop} {lefts : List α} {rights : List β}
    (paired : List.Forall₂ (fun _ right => property right) lefts rights) :
    ∀ right ∈ rights, property right := by
  induction paired with
  | nil => exact List.forall_mem_nil property
  | cons first _ inductionHypothesis =>
      exact List.forall_mem_cons.mpr ⟨first, inductionHypothesis⟩

namespace CarryChain

variable {operation : Operation} {base : Nat} {digit : Byte → Nat} {carry : Bool}
  {terms : List Terms} {machines : List (Machine World)} {final : Machine World}

theorem ne_nil (chain : CarryChain carry machines final) : machines ≠ [] := by
  cases chain <;> exact List.cons_ne_nil _ _

theorem total (chain : CarryChain carry machines final)
    (yields : List.Forall₂ (Yields operation base digit) terms machines) :
    operation.total (number base digit (terms.map Terms.accumulator))
        (number base digit (terms.map Terms.operand)) carry =
      number base digit (machines.map leaves) +
        base ^ machines.length * operation.unit final.cpu.registers.status.carry := by
  induction chain generalizing terms with
  | last starts =>
      obtain _ | ⟨⟨-, first⟩, none⟩ := yields
      obtain rfl := List.forall₂_nil_right_iff.mp none
      rw [starts] at first
      simpa [number] using first
  | link starts follows inductionHypothesis =>
      obtain _ | ⟨⟨-, first⟩, others⟩ := yields
      rw [starts] at first
      simp only [List.map_cons, number_cons, List.length_cons, Nat.cast_add, Nat.cast_mul]
      rw [Operation.total_cons first, inductionHypothesis others]
      ring

theorem result_and_carry (chain : CarryChain carry machines final) (large : 1 < base)
    (yields : List.Forall₂ (Yields operation base digit) terms machines) :
    let total := operation.total (number base digit (terms.map Terms.accumulator))
      (number base digit (terms.map Terms.operand)) carry
    (number base digit (machines.map leaves) : Int) = total % base ^ machines.length ∧
      (final.cpu.registers.status.carry = true ↔
        operation.Carries (base ^ machines.length) total) := by
  have total := chain.total yields
  have below : number base digit (machines.map leaves) < base ^ machines.length := by
    have digits := forall_of_paired (yields.imp fun _ _ yields => yields.1)
    have bound := number_lt large (List.forall_mem_map.mpr digits)
    rwa [List.length_map] at bound
  have within : (number base digit (machines.map leaves) : Int) < base ^ machines.length := by
    exact_mod_cast below
  exact ⟨(Operation.total_emod total (Int.natCast_nonneg _) within).symm,
    (Operation.carries_total total (Int.natCast_nonneg _) within).symm⟩

theorem getLast?_leaves (chain : CarryChain carry machines final) :
    (machines.map leaves).getLast? = some final.cpu.registers.a := by
  induction chain with
  | last starts => rfl
  | link starts follows inductionHypothesis =>
      rw [List.map_cons, List.getLast?_cons_of_ne_nil (mt List.map_eq_nil_iff.mp follows.ne_nil)]
      exact inductionHypothesis

theorem overflow (chain : CarryChain carry machines final)
    (reckons : List.Forall₂ (Reckons operation false) terms machines) :
    final.cpu.registers.status.overflow = true ↔
      ¬ Representable machines.length
        (operation.total (signed (terms.map Terms.accumulator))
          (signed (terms.map Terms.operand)) carry) := by
  induction chain generalizing terms with
  | last starts =>
      obtain _ | ⟨first, none⟩ := reckons
      obtain rfl := List.forall₂_nil_right_iff.mp none
      rw [first.step.2.2, ← starts]
      exact operation.overflow_binary _ _
  | link starts follows inductionHypothesis =>
      obtain _ | ⟨first, others⟩ := reckons
      have above := inductionHypothesis others
      obtain ⟨next, rest, rfl⟩ := List.exists_cons_of_ne_nil follows.ne_nil
      obtain _ | ⟨-, -⟩ := others
      simp only [List.map_cons, List.length_cons, signed_cons] at above ⊢
      rw [← starts, Operation.total_cons first.total_binary, representable_cons]
      exact above

theorem shows (chain : CarryChain carry machines final)
    (reckons : List.Forall₂ (Reckons operation false) terms machines) :
    final.cpu.registers.status.Shows final.cpu.registers.a := by
  induction chain generalizing terms with
  | last starts =>
      obtain _ | ⟨first, -⟩ := reckons
      obtain ⟨-, value, status⟩ := first.step
      rw [leaves] at value
      rw [value, status]
      exact operation.shows_binary _ _
  | link starts follows inductionHypothesis =>
      obtain _ | ⟨-, others⟩ := reckons
      exact inductionHypothesis others

end CarryChain

/-! ## Binary and decimal numbers -/

/-- A chain of binary additions or subtractions leaves the digits of the total modulo the
modulus, and its last flags describe the whole number. -/
theorem binary_chain {operation : Operation} {carry : Bool} {terms : List Terms}
    {machines : List (Machine World)} {final : Machine World}
    (reckons : List.Forall₂ (Reckons operation false) terms machines)
    (chain : CarryChain carry machines final) :
    let accumulators := terms.map Terms.accumulator
    let operands := terms.map Terms.operand
    let modulus : Int := 256 ^ machines.length
    let total := operation.total (number 256 BitVec.toNat accumulators)
      (number 256 BitVec.toNat operands) carry
    (∀ machine ∈ machines, ∃ cycles, machine.step.1 = .ok cycles) ∧
      (number 256 BitVec.toNat (machines.map leaves) : Int) = total % modulus ∧
      (final.cpu.registers.status.carry = true ↔ operation.Carries modulus total) ∧
      (final.cpu.registers.status.overflow = true ↔
        ¬ Representable machines.length
          (operation.total (signed accumulators) (signed operands) carry)) ∧
      (machines.map leaves).getLast? = some final.cpu.registers.a ∧
      final.cpu.registers.status.Shows final.cpu.registers.a := by
  have completes := forall_of_paired (reckons.imp fun _ _ reckons => reckons.step.1)
  obtain ⟨result, carries⟩ := chain.result_and_carry (by decide)
    (reckons.imp fun _ _ reckons => reckons.yields_binary)
  exact ⟨completes, result, carries, chain.overflow reckons, chain.getLast?_leaves,
    chain.shows reckons⟩

def subtractingMachine (terms : Terms) (carry decimal : Bool) : Machine Unit where
  cpu := { registers := { a := terms.accumulator, status := { carry, decimal } }, config := {} }
  bus := { ram := Ram.zero.store 0 [0xE9, terms.operand], world := () }

def immediateSubtraction : Instruction where
  mnemonic := .sbc
  mode := .immediate
  cycles := 2
  pagePenalty := false

/-- Two machines that take one from $8000, byte by byte. -/
def borrowingMachines (decimal : Bool) : List (Machine Unit) :=
  [subtractingMachine ⟨0x00, 0x01⟩ true decimal, subtractingMachine ⟨0x80, 0x00⟩ false decimal]

theorem borrowingMachines_reckon (decimal : Bool) :
    List.Forall₂ (Reckons .subtraction decimal) [⟨0x00, 0x01⟩, ⟨0x80, 0x00⟩]
      (borrowingMachines decimal) := by
  have low : (subtractingMachine ⟨0x00, 0x01⟩ true decimal).Executes immediateSubtraction :=
    ⟨⟨rfl, Or.inl rfl⟩, by cases decimal <;> decide +kernel⟩
  have high : (subtractingMachine ⟨0x80, 0x00⟩ false decimal).Executes immediateSubtraction :=
    ⟨⟨rfl, Or.inl rfl⟩, by cases decimal <;> decide +kernel⟩
  refine .cons ⟨⟨_, low, rfl⟩, rfl, rfl, 1, ?_⟩ (.cons ⟨⟨_, high, rfl⟩, rfl, rfl, 1, ?_⟩ .nil)
  · cases decimal <;> decide +kernel
  · cases decimal <;> decide +kernel

theorem borrowingMachines_chain (decimal : Bool) :
    CarryChain true (borrowingMachines decimal)
      (subtractingMachine ⟨0x80, 0x00⟩ false decimal).step.2 :=
  .link rfl (.last (by cases decimal <;> decide +kernel))

/-- The greatest number of two bytes is one less than the least, and overflow says so. -/
theorem borrowingMachines_overflow :
    number 256 BitVec.toNat ((borrowingMachines false).map leaves) = 0x7FFF ∧
      (subtractingMachine ⟨0x80, 0x00⟩ false false).step.2.cpu.registers.status.overflow =
        true := by
  obtain ⟨-, result, -, overflow, -⟩ :=
    binary_chain (borrowingMachines_reckon false) (borrowingMachines_chain false)
  exact ⟨Int.ofNat.inj (result.trans (by decide)), overflow.mpr (by decide)⟩

/-- A chain of decimal additions or subtractions of valid numbers leaves the decimal digits of
the total modulo the modulus. -/
theorem decimal_chain {operation : Operation} {carry : Bool} {terms : List Terms}
    {machines : List (Machine World)} {final : Machine World}
    (valid : ∀ pair ∈ terms, IsDecimal pair.accumulator ∧ IsDecimal pair.operand)
    (reckons : List.Forall₂ (Reckons operation true) terms machines)
    (chain : CarryChain carry machines final) :
    let modulus : Int := 100 ^ machines.length
    let total := operation.total (number 100 decimalValue (terms.map Terms.accumulator))
      (number 100 decimalValue (terms.map Terms.operand)) carry
    (∀ machine ∈ machines, ∃ cycles, machine.step.1 = .ok cycles) ∧
      (∀ byte ∈ machines.map leaves, IsDecimal byte) ∧
      (number 100 decimalValue (machines.map leaves) : Int) = total % modulus ∧
      (final.cpu.registers.status.carry = true ↔ operation.Carries modulus total) := by
  have completes := forall_of_paired (reckons.imp fun _ _ reckons => reckons.step.1)
  have links := (List.forall₂_and_left terms machines).mpr ⟨valid, reckons⟩
  have decimals := forall_of_paired
    (links.imp fun _ _ link => (link.2.yields_decimal link.1).1)
  obtain ⟨result, carries⟩ := chain.result_and_carry (by decide)
    (links.imp fun _ _ link => (link.2.yields_decimal link.1).2)
  exact ⟨completes, List.forall_mem_map.mpr decimals, result, carries⟩

theorem borrowingMachines_difference :
    number 100 decimalValue ((borrowingMachines true).map leaves) = 7999 ∧
      (subtractingMachine ⟨0x80, 0x00⟩ false true).step.2.cpu.registers.status.carry = true := by
  obtain ⟨-, -, result, carry⟩ :=
    decimal_chain (by decide) (borrowingMachines_reckon true) (borrowingMachines_chain true)
  exact ⟨Int.ofNat.inj (result.trans (by decide)), carry.mpr (by decide)⟩

end Machine

end Nmos6502
