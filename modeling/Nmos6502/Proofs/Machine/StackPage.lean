import Nmos6502.Proofs.Bus.Veil
import Nmos6502.Proofs.Interrupt.Nesting
import Nmos6502.Proofs.Machine.Calls
import Nmos6502.Proofs.Machine.StatusBytes

/-!
# The stack page as a stack

To whoever pushes and pulls, the stack page is a list of up to 256 bytes with the top first.  Its
bottom lies in the cell that the stack pointer selects at the start and every other byte in the cell
below the one that it was put on, so the pointer tells how many there are (`Machine.Piled`).  A full
page has the pointer back where it was, and even then no byte lies on another.

A host moves bytes by calls, and a program by the four instructions that push or pull a register.
Both keep the same invariant, because only the pointer and the memory have a part in it
(`Piled.push`, `Piled.pull`).
-/

set_option autoImplicit false

namespace Nmos6502

variable {World : Type}

inductive StackMove where
  | push (value : Byte)
  | pull
  deriving DecidableEq, Repr

namespace StackMove

/-! ## Stacks -/

def apply : StackMove → List Byte → List Byte
  | push value, pile => value :: pile
  | pull, pile => pile.tail

/-- What lies on a stack after these moves, the top first. -/
def contents (moves : List StackMove) : List Byte :=
  moves.foldl (fun pile move => move.apply pile) []

def isPush : StackMove → Bool
  | push _ => true
  | pull => false

def pushes (moves : List StackMove) : Nat := moves.countP isPush

def pulls (moves : List StackMove) : Nat := moves.countP fun move => !move.isPush

/-- At no time have more bytes been taken off than were put on, or are there more than a page
holds. -/
def Bounded (moves : List StackMove) : Prop :=
  ∀ count ≤ moves.length, pulls (moves.take count) ≤ pushes (moves.take count) ∧
    pushes (moves.take count) ≤ pulls (moves.take count) + 256

instance (moves : List StackMove) : Decidable (Bounded moves) :=
  inferInstanceAs (Decidable (∀ count ≤ moves.length, _ ∧ _))

def request : StackMove → Machine.Request World
  | push value => .push value
  | pull => .pull

variable {moves : List StackMove} {move : StackMove} {count : Nat}

theorem pushes_concat (moves : List StackMove) (move : StackMove) :
    pushes (moves ++ [move]) = pushes moves + if move.isPush then 1 else 0 := by
  rw [pushes, List.countP_append, List.countP_singleton, pushes]

theorem pulls_concat (moves : List StackMove) (move : StackMove) :
    pulls (moves ++ [move]) = pulls moves + if !move.isPush then 1 else 0 := by
  rw [pulls, List.countP_append, List.countP_singleton, pulls]

theorem take_succ (next : moves[count]? = some move) :
    moves.take (count + 1) = moves.take count ++ [move] := by
  rw [List.take_add_one, next, Option.toList_some]

theorem contents_take_succ (next : moves[count]? = some move) :
    contents (moves.take (count + 1)) = move.apply (contents (moves.take count)) := by
  rw [take_succ next, contents, List.foldl_append]
  rfl

def Possible (pile : List Byte) : StackMove → Prop
  | push _ => pile.length < 256
  | pull => pile ≠ []

theorem Possible.length_apply {pile : List Byte} (possible : move.Possible pile) :
    (move.apply pile).length + (if !move.isPush then 1 else 0) =
      pile.length + if move.isPush then 1 else 0 := by
  cases move with
  | push value => rfl
  | pull =>
      obtain ⟨top, rest, rfl⟩ := List.exists_cons_of_ne_nil possible
      rfl

theorem Bounded.possible_of_balance (bounded : Bounded moves) (next : moves[count]? = some move)
    (balance : (contents (moves.take count)).length + pulls (moves.take count) =
      pushes (moves.take count)) : move.Possible (contents (moves.take count)) := by
  obtain ⟨within, -⟩ := List.getElem?_eq_some_iff.mp next
  obtain ⟨enough, room⟩ := bounded (count + 1) within
  rw [take_succ next, pushes_concat, pulls_concat] at enough room
  cases move with
  | push value =>
      change pushes _ + 1 ≤ pulls _ + 0 + 256 at room
      change _ < 256
      omega
  | pull =>
      change pulls _ + 1 ≤ pushes _ + 0 at enough
      exact List.ne_nil_of_length_pos (by omega)

theorem Bounded.balance (bounded : Bounded moves) (atMost : count ≤ moves.length) :
    (contents (moves.take count)).length + pulls (moves.take count) =
      pushes (moves.take count) := by
  induction count with
  | zero => rfl
  | succ count inductionHypothesis =>
      have next : moves[count]? = some moves[count] := List.getElem?_eq_getElem atMost
      have before := inductionHypothesis (Nat.le_of_succ_le atMost)
      have grows := (bounded.possible_of_balance next before).length_apply
      rw [contents_take_succ next, take_succ next, pushes_concat, pulls_concat]
      omega

theorem Bounded.possible (bounded : Bounded moves) (next : moves[count]? = some move) :
    move.Possible (contents (moves.take count)) := by
  obtain ⟨within, -⟩ := List.getElem?_eq_some_iff.mp next
  exact bounded.possible_of_balance next (bounded.balance (Nat.le_of_lt within))

end StackMove

open StackMove

namespace Machine

/-! ## Stacks in the stack page -/

/-- The bytes lie in the stack page from the pointer of the first machine downward, the top next to
the pointer of the second, and no other page has changed. -/
structure Piled (start machine : Machine World) (pile : List Byte) : Prop where
  pointer : machine.cpu.registers.sp = start.cpu.registers.sp - BitVec.ofNat 8 pile.length
  live : ∀ index < pile.length, pile.reverse[index]? = some (machine.bus.ram.get (start.slot index))
  outside : ∀ address, address.high ≠ 0x01 →
    machine.bus.ram.get address = start.bus.ram.get address
  regions : machine.bus.regions = start.bus.regions

variable {start machine after : Machine World} {pile : List Byte} {highest value : Byte}

theorem Piled.empty (machine : Machine World) : Piled machine machine [] where
  pointer := (BitVec.sub_zero _).symm
  live := fun _ within => absurd within (Nat.not_lt_zero _)
  outside := fun _ _ => rfl
  regions := rfl

theorem Piled.plainStack (piled : Piled start machine pile) (plain : start.bus.PlainStack) :
    machine.bus.PlainStack :=
  (Bus.plainStack_congr piled.regions).mpr plain

theorem Piled.stackCell_eq (piled : Piled start machine pile) :
    Registers.stackCell machine.cpu.registers.sp = start.slot pile.length := by
  rw [piled.pointer, slot]

theorem Piled.push (piled : Piled start machine pile) (room : pile.length < 256)
    (pointer : after.cpu.registers.sp = machine.cpu.registers.sp - 1)
    (ram : after.bus.ram =
      machine.bus.ram.set (Registers.stackCell machine.cpu.registers.sp) value)
    (regions : after.bus.regions = machine.bus.regions) : Piled start after (value :: pile) := by
  constructor
  case pointer =>
    rw [pointer, piled.pointer]
    exact sub_ofNat_sub _ _ 1
  case live =>
    intro index within
    rw [ram, piled.stackCell_eq, List.reverse_cons]
    rcases Nat.lt_succ_iff_lt_or_eq.mp within with below | rfl
    · have apart := start.slot_ne_slot index pile.length below (by omega)
      rw [Ram.get_set_of_ne _ _ apart, ← piled.live index below, List.getElem?_append_left]
      rwa [List.length_reverse]
    · rw [Ram.get_set_self, List.getElem?_append_right (by simp), List.length_reverse,
        Nat.sub_self]
      rfl
  case outside =>
    intro address elsewhere
    have apart : address ≠ Registers.stackCell machine.cpu.registers.sp := by
      rintro rfl
      exact elsewhere (Word.high_ofBytes _ _)
    rw [ram, Ram.get_set_of_ne _ _ apart, piled.outside address elsewhere]
  case regions => exact regions.trans piled.regions

theorem Piled.pointer_succ (piled : Piled start machine (highest :: pile)) :
    machine.cpu.registers.sp + 1 = start.cpu.registers.sp - BitVec.ofNat 8 pile.length := by
  have lowered := sub_ofNat_sub start.cpu.registers.sp pile.length 1
  rw [piled.pointer, List.length_cons, ← lowered]
  exact BitVec.sub_add_cancel _ _

theorem Piled.ram_get_top (piled : Piled start machine (highest :: pile)) :
    machine.bus.ram.get (Registers.stackCell (machine.cpu.registers.sp + 1)) = highest := by
  have last := piled.live pile.length (Nat.lt_succ_self _)
  rw [List.reverse_cons, List.getElem?_append_right (by simp), List.length_reverse,
    Nat.sub_self] at last
  rw [piled.pointer_succ]
  exact (Option.some.inj last).symm

theorem Piled.pull (piled : Piled start machine (highest :: pile))
    (pointer : after.cpu.registers.sp = machine.cpu.registers.sp + 1)
    (ram : after.bus.ram = machine.bus.ram) (regions : after.bus.regions = machine.bus.regions) :
    Piled start after pile := by
  constructor
  case pointer => rw [pointer, piled.pointer_succ]
  case live =>
    intro index within
    have before := piled.live index (Nat.lt_succ_of_lt within)
    rw [List.reverse_cons, List.getElem?_append_left (by rwa [List.length_reverse])] at before
    rw [ram, before]
  case outside =>
    intro address elsewhere
    rw [ram, piled.outside address elsewhere]
  case regions => exact regions.trans piled.regions

/-! ## Calls -/

structure Stacked (machine after : Machine World) : Prop where
  cpu : after.cpu = { machine.cpu with
    registers := { machine.cpu.registers with sp := after.cpu.registers.sp } }
  bus : after.bus = machine.bus.withRam after.bus.ram

theorem Stacked.refl (machine : Machine World) : Stacked machine machine := ⟨rfl, rfl⟩

theorem Stacked.trans (before : Stacked start machine) (later : Stacked machine after) :
    Stacked start after := by
  constructor
  case cpu =>
    rw [later.cpu, before.cpu]
  case bus =>
    rw [later.bus, before.bus]
    rfl

theorem push_of_plain (plain : machine.bus.PlainStack) (value : Byte) :
    machine.push value =
      { machine.setRegisters { machine.cpu.registers with sp := machine.cpu.registers.sp - 1 } with
        bus := machine.bus.withRam
          (machine.bus.ram.set (Registers.stackCell machine.cpu.registers.sp) value) } := by
  have pushes : machine.push value =
      { machine.setRegisters { machine.cpu.registers with sp := machine.cpu.registers.sp - 1 } with
        bus := machine.bus.write (Registers.stackCell machine.cpu.registers.sp) value } := rfl
  rw [pushes, (plain _).write]
  rfl

theorem pull_of_plain (plain : machine.bus.PlainStack) :
    machine.pull =
      (machine.bus.ram.get (Registers.stackCell (machine.cpu.registers.sp + 1)),
        machine.setRegisters
          { machine.cpu.registers with sp := machine.cpu.registers.sp + 1 }) := by
  have cell := (plain (machine.cpu.registers.sp + 1)).read
  rw [pull, Registers.run_pull, cell]
  rfl

theorem piled_perform {move : StackMove} (plain : start.bus.PlainStack)
    (piled : Piled start machine pile) (possible : move.Possible pile) :
    Piled start (machine.perform move.request).2 (move.apply pile) ∧
      Stacked machine (machine.perform move.request).2 := by
  have plainHere := piled.plainStack plain
  cases move with
  | push value =>
      change Piled start (machine.push value) (value :: pile) ∧ Stacked machine (machine.push value)
      rw [push_of_plain plainHere]
      exact ⟨piled.push possible rfl rfl rfl, rfl, rfl⟩
  | pull =>
      obtain ⟨highest, rest, rfl⟩ := List.exists_cons_of_ne_nil possible
      change Piled start machine.pull.2 rest ∧ Stacked machine machine.pull.2
      rw [pull_of_plain plainHere]
      exact ⟨piled.pull rfl rfl rfl, rfl, rfl⟩

theorem performAll_concat (machine : Machine World) (requests : List (Request World))
    (request : Request World) :
    (machine.performAll (requests ++ [request])).2 =
      ((machine.performAll requests).2.perform request).2 := by
  induction requests generalizing machine with
  | nil => rfl
  | cons first rest inductionHypothesis => exact inductionHypothesis _

theorem piled_performAll {moves : List StackMove} {count : Nat} (plain : machine.bus.PlainStack)
    (bounded : Bounded moves) (atMost : count ≤ moves.length) :
    let after := (machine.performAll ((moves.take count).map StackMove.request)).2
    Piled machine after (contents (moves.take count)) ∧ Stacked machine after := by
  induction count with
  | zero => exact ⟨.empty machine, .refl machine⟩
  | succ count inductionHypothesis =>
      have next : moves[count]? = some moves[count] := List.getElem?_eq_getElem atMost
      obtain ⟨piled, stacked⟩ := inductionHypothesis (Nat.le_of_succ_le atMost)
      obtain ⟨moved, aside⟩ := piled_perform plain piled (bounded.possible next)
      rw [contents_take_succ next, take_succ next, List.map_append, List.map_singleton,
        performAll_concat]
      exact ⟨moved, stacked.trans aside⟩

theorem pull_of_piled (plain : start.bus.PlainStack) (piled : Piled start machine pile)
    (possible : StackMove.pull.Possible pile) : pile.head? = some machine.pull.1 := by
  obtain ⟨highest, rest, rfl⟩ := List.exists_cons_of_ne_nil possible
  rw [pull_of_plain (piled.plainStack plain), piled.ram_get_top]
  rfl

/-! ## Instructions -/

/-- The move that an instruction makes from this machine, if it is one that makes a move. -/
def moveOf (machine : Machine World) : Mnemonic → StackMove
  | .pha => .push machine.cpu.registers.a
  | .php => .push (machine.statusByte ||| 0x30)
  | _ => .pull

def movesOf (machine : Machine World) (mnemonics : List Mnemonic) : List StackMove :=
  mnemonics.mapIdx fun index mnemonic => (machine.after index).moveOf mnemonic

end Machine

theorem Status.describing_eq (status : Status) (value : Byte) :
    status.describing value =
      { status with negative := value.getLsbD 7, zero := decide (value = 0) } := by
  rw [describing, BitVec.msb_eq_getLsbD_last]
  rfl

def Mnemonic.stacking : Mnemonic → Option Instruction
  | pha => some { mnemonic := .pha, mode := .implied, cycles := 3, pagePenalty := false }
  | php => some { mnemonic := .php, mode := .implied, cycles := 3, pagePenalty := false }
  | pla => some { mnemonic := .pla, mode := .implied, cycles := 4, pagePenalty := false }
  | plp => some { mnemonic := .plp, mode := .implied, cycles := 4, pagePenalty := false }
  | _ => none

theorem eq_of_stacking : ∀ opcode : Byte, ∀ instruction ∈ decode opcode,
    ∀ row ∈ instruction.mnemonic.stacking, instruction = row := by
  decide +kernel

/-- What the instruction makes of the registers, given the stack before it.  A status that is pulled
has the break bit clear and the unused bit set, whatever the byte says. -/
def Mnemonic.MovesRegister (mnemonic : Mnemonic) (pile : List Byte) (before after : Registers) :
    Prop :=
  match mnemonic with
  | .pha | .php => after = { before with sp := before.sp - 1, pc := before.pc + 1 }
  | .pla =>
      ∃ highest, pile.head? = some highest ∧
        after = { before with
          a := highest
          sp := before.sp + 1
          pc := before.pc + 1
          status := { before.status with
            negative := highest.getLsbD 7
            zero := decide (highest = 0) } }
  | .plp =>
      ∃ highest, pile.head? = some highest ∧ after.status.bits = (highest ||| 0x20) &&& 0xEF ∧
        after = { before with
          sp := before.sp + 1
          pc := before.pc + 1
          status := after.status }
  | _ => False

namespace Machine

variable {start machine : Machine World} {pile : List Byte}

theorem RunsA.stacks {mnemonic : Mnemonic} {row : Instruction} (runs : machine.RunsA mnemonic)
    (only : mnemonic.stacking = some row) : machine.Executes row := by
  obtain ⟨instruction, executes, rfl⟩ := runs
  rwa [← eq_of_stacking _ instruction executes.2 row only]

theorem run_push_behind (machine : Machine World) (value : Byte) :
    ((machine.behind .implied).push value).run machine.fetched =
      ({ machine.cpu.registers with
          sp := machine.cpu.registers.sp - 1
          pc := machine.cpu.registers.pc + 1 },
        machine.fetched.write (Registers.stackCell machine.cpu.registers.sp) value) := by
  rw [behind_eq]
  rfl

theorem run_pull_behind (plain : machine.bus.PlainStack) :
    (machine.behind .implied).pull.run machine.fetched =
      ((machine.bus.ram.get (Registers.stackCell (machine.cpu.registers.sp + 1)),
        { machine.cpu.registers with
          sp := machine.cpu.registers.sp + 1
          pc := machine.cpu.registers.pc + 1 }), machine.fetched) := by
  have cell := (plainStack_fetched plain (machine.cpu.registers.sp + 1)).read
  rw [fetched, Bus.ram_read] at cell
  rw [behind_eq, Registers.run_pull, fetched, cell]
  rfl

theorem step_of_pushed {row : Instruction} {value : Byte} (plain : machine.bus.PlainStack)
    (executes : machine.Executes row)
    (acts : machine.acted row = ((machine.behind .implied).push value).run machine.fetched) :
    machine.step.2.cpu.registers = { machine.cpu.registers with
        sp := machine.cpu.registers.sp - 1
        pc := machine.cpu.registers.pc + 1 } ∧
      machine.step.2.bus.ram =
        machine.bus.ram.set (Registers.stackCell machine.cpu.registers.sp) value := by
  rw [step_of_executes executes, acts, run_push_behind, (plainStack_fetched plain _).write]
  exact ⟨rfl, congrArg (Ram.set · _ value) (machine.bus.ram_read _)⟩

theorem step_of_pulled {row : Instruction} {after : Byte × Registers → Registers}
    (plain : machine.bus.PlainStack) (executes : machine.Executes row)
    (acts : machine.acted row =
      ((machine.behind .implied).pull.bind fun pulled => .done (after pulled)).run
        machine.fetched) :
    machine.step.2.cpu.registers =
        after (machine.bus.ram.get (Registers.stackCell (machine.cpu.registers.sp + 1)),
          { machine.cpu.registers with
            sp := machine.cpu.registers.sp + 1
            pc := machine.cpu.registers.pc + 1 }) ∧
      machine.step.2.bus.ram = machine.bus.ram := by
  rw [step_of_executes executes, acts, Program.run_bind, run_pull_behind plain]
  exact ⟨rfl, machine.bus.ram_read _⟩

theorem piled_step {mnemonic : Mnemonic} (plain : start.bus.PlainStack)
    (piled : Piled start machine pile) (stacking : mnemonic ∈ [.pha, .php, .pla, .plp])
    (runs : machine.RunsA mnemonic) (possible : (machine.moveOf mnemonic).Possible pile) :
    Piled start machine.step.2 ((machine.moveOf mnemonic).apply pile) ∧
      mnemonic.MovesRegister pile machine.cpu.registers machine.step.2.cpu.registers := by
  have plainHere := piled.plainStack plain
  have regions := machine.regions_step
  cases mnemonic with
  | pha =>
      obtain ⟨registers, ram⟩ := step_of_pushed plainHere (runs.stacks rfl) rfl
      exact ⟨piled.push possible (congrArg Registers.sp registers) ram regions, registers⟩
  | php =>
      obtain ⟨registers, ram⟩ := step_of_pushed plainHere (runs.stacks rfl) rfl
      rw [Status.pushed_true] at ram
      exact ⟨piled.push possible (congrArg Registers.sp registers) ram regions, registers⟩
  | pla =>
      obtain ⟨highest, rest, rfl⟩ := List.exists_cons_of_ne_nil possible
      obtain ⟨registers, ram⟩ := step_of_pulled plainHere (runs.stacks rfl) rfl
      refine ⟨piled.pull (congrArg Registers.sp registers) ram regions, highest, rfl, ?_⟩
      rw [registers, piled.ram_get_top, Registers.put, Status.describing_eq]
      rfl
  | plp =>
      obtain ⟨highest, rest, rfl⟩ := List.exists_cons_of_ne_nil possible
      obtain ⟨registers, ram⟩ := step_of_pulled plainHere (runs.stacks rfl) rfl
      rw [piled.ram_get_top] at registers
      refine ⟨piled.pull (congrArg Registers.sp registers) ram regions, highest, rfl, ?_, ?_⟩
      · rw [registers]
        exact Status.bits_ofBits highest
      · rw [registers]
  | _ => simp at stacking

def RunsInTurn (machine : Machine World) (mnemonics : List Mnemonic) : Prop :=
  ∀ index (within : index < mnemonics.length), (machine.after index).RunsA mnemonics[index]

theorem RunsInTurn.completes {mnemonics : List Mnemonic} (runs : machine.RunsInTurn mnemonics) :
    machine.Completes mnemonics.length := by
  intro index within
  obtain ⟨instruction, executes, -⟩ := runs index within
  exact ⟨_, congrArg Prod.fst (step_of_executes executes)⟩

theorem getElem?_movesOf (machine : Machine World) {mnemonics : List Mnemonic}
    {mnemonic : Mnemonic} {count : Nat} (next : mnemonics[count]? = some mnemonic) :
    (machine.movesOf mnemonics)[count]? = some ((machine.after count).moveOf mnemonic) := by
  rw [movesOf, List.getElem?_mapIdx, next, Option.map_some]

theorem piled_after {mnemonics : List Mnemonic} {count : Nat} (plain : machine.bus.PlainStack)
    (stacking : ∀ mnemonic ∈ mnemonics, mnemonic ∈ [.pha, .php, .pla, .plp])
    (runs : machine.RunsInTurn mnemonics) (bounded : Bounded (machine.movesOf mnemonics))
    (atMost : count ≤ mnemonics.length) :
    Piled machine (machine.after count) (contents ((machine.movesOf mnemonics).take count)) := by
  induction count with
  | zero => exact .empty machine
  | succ count inductionHypothesis =>
      have next : mnemonics[count]? = some mnemonics[count] := List.getElem?_eq_getElem atMost
      have moved := machine.getElem?_movesOf next
      rw [contents_take_succ moved]
      exact (piled_step plain (inductionHypothesis (Nat.le_of_succ_le atMost))
        (stacking _ (List.getElem_mem atMost)) (runs count atMost) (bounded.possible moved)).1

/-- Pushes and pulls treat the stack page as a stack that holds 256 bytes, from wherever the stack
pointer starts: what a pull gives was put on last, the pointer counts the bytes, and nothing lies
outside the page.  This is so of the calls of a host, which change nothing else, and of the four
instructions, which also move a register. -/
theorem stack_page_is_stack {machine : Machine World} (plain : machine.bus.PlainStack) :
    (∀ moves, Bounded moves → ∀ count ≤ moves.length,
      let pile := contents (moves.take count)
      let after := (machine.performAll ((moves.take count).map StackMove.request)).2
      pile.length + pulls (moves.take count) = pushes (moves.take count) ∧
        Piled machine after pile ∧ Stacked machine after ∧
        (moves[count]? = some .pull → pile.head? = some after.pull.1)) ∧
      ∀ mnemonics, (∀ mnemonic ∈ mnemonics, mnemonic ∈ [.pha, .php, .pla, .plp]) →
        machine.RunsInTurn mnemonics → Bounded (machine.movesOf mnemonics) →
        machine.Completes mnemonics.length ∧ ∀ count ≤ mnemonics.length,
          let moves := (machine.movesOf mnemonics).take count
          (contents moves).length + pulls moves = pushes moves ∧
            Piled machine (machine.after count) (contents moves) ∧
            ∀ mnemonic, mnemonics[count]? = some mnemonic →
              mnemonic.MovesRegister (contents moves) (machine.after count).cpu.registers
                (machine.after (count + 1)).cpu.registers := by
  constructor
  · intro moves bounded count atMost
    obtain ⟨piled, stacked⟩ := piled_performAll plain bounded atMost
    exact ⟨bounded.balance atMost, piled, stacked,
      fun next => pull_of_piled plain piled (bounded.possible next)⟩
  · intro mnemonics stacking runs bounded
    refine ⟨runs.completes, fun count atMost => ?_⟩
    have piled := piled_after plain stacking runs bounded atMost
    have size : (machine.movesOf mnemonics).length = mnemonics.length := List.length_mapIdx
    refine ⟨bounded.balance (size ▸ atMost), piled, fun mnemonic next => ?_⟩
    obtain ⟨within, rfl⟩ := List.getElem?_eq_some_iff.mp next
    exact (piled_step plain piled (stacking _ (List.getElem_mem within)) (runs count within)
      (bounded.possible (machine.getElem?_movesOf next))).2

/-- Its pointer starts in the lowest cell of the page, so the second byte goes to the highest. -/
def stackingMachine : Machine Unit where
  cpu :=
    { registers := { a := 0x5A, sp := 0x00, pc := 0x0200, status := { carry := true } }
      config := {} }
  bus := { ram := Ram.zero.store 0x0200 [0x48, 0x08, 0x28, 0x68], world := () }

theorem stackingMachine_wraps :
    let calls := [StackMove.push 0x11, .push 0x22, .pull]
    let called := (stackingMachine.performAll ((calls.take 2).map StackMove.request)).2
    called.cpu.registers.sp = 0xFE ∧ called.pull.1 = 0x22 ∧
      (stackingMachine.after 2).bus.ram.get 0x01FF = 0x31 ∧
      (stackingMachine.after 4).cpu.registers.a = 0x5A := by
  intro calls called
  have plain : stackingMachine.bus.PlainStack := fun _ => rfl
  have runs : stackingMachine.RunsInTurn [.pha, .php, .plp, .pla]
    | 0, _ => ⟨_, ⟨by decide +kernel, rfl⟩, rfl⟩
    | 1, _ => ⟨_, ⟨by decide +kernel, rfl⟩, rfl⟩
    | 2, _ => ⟨_, ⟨by decide +kernel, rfl⟩, rfl⟩
    | 3, _ => ⟨_, ⟨by decide +kernel, rfl⟩, rfl⟩
  obtain ⟨hosts, programs⟩ := stack_page_is_stack plain
  obtain ⟨-, piled, -, pulled⟩ := hosts calls (by decide) 2 (by decide)
  obtain ⟨-, steps⟩ := programs _ (by decide) runs (by decide +kernel)
  obtain ⟨-, saved, -⟩ := steps 2 (by decide)
  obtain ⟨-, -, loads⟩ := steps 3 (by decide)
  obtain ⟨highest, top, registers⟩ := loads .pla rfl
  have held : (contents ((stackingMachine.movesOf [.pha, .php, .plp, .pla]).take 3)).head? =
      some 0x5A := by decide +kernel
  have stored := saved.live 1 (by decide +kernel)
  refine ⟨piled.pointer, (Option.some.inj (pulled rfl)).symm, ?_, ?_⟩
  · exact (Option.some.inj stored).symm.trans (by decide +kernel)
  · rw [registers]
    exact Option.some.inj (top.symm.trans held)

end Machine

end Nmos6502
