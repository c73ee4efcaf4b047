import Mathlib.Data.List.Forall2
import Nmos6502.Proofs.Bus.Veil
import Nmos6502.Proofs.Machine.Stack
import Nmos6502.Instruction.Execution

/-!
# The decimal flag where it does not count

With decimal arithmetic switched off no instruction looks at the decimal flag, and it is carried
along as one bit of the status.  Registers that have another value of it
(`Registers.withDecimal`) take every instruction through the same accesses to registers that
again differ in nothing else (`Mnemonic.execute_withDecimal`).

The two instructions left out there, PHP and BRK, store a copy of the status, and so does an
interrupt.  The copies differ in the one bit.  As long as no device looks at it, it stays in the
cell where the copy was stored (`Bus.Marked`), and the programs go on side by side
(`Program.Follows`).
-/

set_option autoImplicit false

namespace Nmos6502

variable {World : Type}

/-! ## Registers -/

def Registers.withDecimal (registers : Registers) (decimal : Bool) : Registers :=
  { registers with status := { registers.status with decimal } }

theorem Addressing.resolve_withDecimal (mode : Mode) (registers : Registers) (decimal : Bool) :
    resolve mode (registers.withDecimal decimal) = resolve mode registers := by
  cases mode <;> rfl

theorem Instruction.totalCycles_withDecimal (instruction : Instruction) (operand : Operand)
    (status : Status) (decimal : Bool) :
    instruction.totalCycles operand { status with decimal } =
      instruction.totalCycles operand status := by
  obtain ⟨mnemonic, mode, cycles, penalty⟩ := instruction
  cases mnemonic <;> rfl

namespace Mnemonic

theorem execute_withDecimal {mnemonic : Mnemonic} (unsaved : mnemonic ≠ .php ∧ mnemonic ≠ .brk)
    (operand : Operand) (registers : Registers) (decimal : Bool) :
    ∃ flag : Registers → Bool,
      mnemonic.action.execute false operand (registers.withDecimal decimal) =
        (mnemonic.action.execute false operand registers).bind fun after =>
          .done (after.withDecimal (flag after)) := by
  cases mnemonic with
  | php => exact absurd rfl unsaved.1
  | brk => exact absurd rfl unsaved.2
  | cld | sed | plp | rti => exact ⟨fun after => after.status.decimal, rfl⟩
  | lda | ldx | ldy | sta | stx | sty | adc | sbc | cmp | cpx | cpy | and | ora | eor | bit
  | asl | lsr | rol | ror | inc | dec =>
      -- With or without an address the programs are the same, read by read.
      refine ⟨fun _ => decimal, ?_⟩
      obtain ⟨_ | address, crossed⟩ := operand
      · rfl
      · rfl
  | bpl | bmi | bvc | bvs | bcc | bcs | bne | beq =>
      refine ⟨fun _ => decimal, ?_⟩
      simp only [action, Action.execute, Program.pure_eq, Program.done_bind, apply_ite
        (Registers.withDecimal · decimal)]
      rfl
  | _ => exact ⟨fun _ => decimal, rfl⟩

end Mnemonic

/-! ## Stored copies of the status -/

namespace Status

def AgreeButDecimal (first second : Byte) : Prop :=
  ∀ place, place ≠ Flag.decimal.position → first.getLsbD place = second.getLsbD place

theorem pushed_withDecimal (status : Status) (decimal brk : Bool) :
    AgreeButDecimal (status.pushed brk) ({ status with decimal }.pushed brk) := by
  intro place different
  obtain ⟨carry, zero, irqDisable, -, first, unused, overflow, negative⟩ :=
    status.getLsbD_toByte brk
  obtain ⟨carry', zero', irqDisable', -, first', unused', overflow', negative'⟩ :=
    { status with decimal }.getLsbD_toByte brk
  match place with
  | 0 => exact carry.trans carry'.symm
  | 1 => exact zero.trans zero'.symm
  | 2 => exact irqDisable.trans irqDisable'.symm
  | 3 => exact absurd rfl different
  | 4 => exact first.trans first'.symm
  | 5 => exact unused.trans unused'.symm
  | 6 => exact overflow.trans overflow'.symm
  | 7 => exact negative.trans negative'.symm
  | place + 8 => rw [BitVec.getLsbD_of_ge _ _ (by omega), BitVec.getLsbD_of_ge _ _ (by omega)]

end Status

open Status

/-- The two accesses are the same, or they store copies of the status in one of the cells. -/
inductive Access.Marked (cells : Word → Prop) : Access → Access → Prop where
  | same (transfer : Access) : Marked cells transfer transfer
  | stored {cell : Word} {saved copy : Byte} (here : cells cell)
      (agree : AgreeButDecimal saved copy) : Marked cells (.write cell saved) (.write cell copy)

theorem Access.forall_marked_same (cells : Word → Prop) (transfers : List Access) :
    List.Forall₂ (Marked cells) transfers transfers :=
  List.forall₂_same.mpr fun transfer _ => .same transfer

namespace Bus

variable {bus other : Bus World} {cell : Word} {cells : Word → Prop}

/-- The buses are the same, but for the bit of the decimal flag in some cells of the memory. -/
def Marked (cells : Word → Prop) (bus other : Bus World) : Prop :=
  ∃ ram, other = bus.withRam ram ∧
    (∀ address, ¬ cells address → ram.get address = bus.ram.get address) ∧
    ∀ address, cells address → AgreeButDecimal (bus.ram.get address) (ram.get address)

theorem Marked.refl (cells : Word → Prop) (bus : Bus World) : Marked cells bus bus :=
  ⟨bus.ram, rfl, fun _ _ => rfl, fun _ _ _ _ => rfl⟩

/-- No device at this cell does anything by the bit of the decimal flag that is written to it. -/
def Blind (bus : Bus World) (cell : Word) : Prop :=
  ∀ handler, bus.handlerAt cell = some handler →
    ∀ saved copy, AgreeButDecimal saved copy →
      ∀ world, handler.write cell copy world = handler.write cell saved world

theorem blind_congr (same : other.regions = bus.regions) : other.Blind cell ↔ bus.Blind cell := by
  simp only [Blind, handlerAt, same]

theorem Blind.write (blind : bus.Blind cell) (here : cells cell) {saved copy : Byte}
    (agree : AgreeButDecimal saved copy) :
    Marked cells (bus.write cell saved) (bus.write cell copy) := by
  cases owner : bus.handlerAt cell with
  | some handler =>
      have same : bus.write cell copy = bus.write cell saved := by
        rw [write_of_covered _ owner, write_of_covered _ owner, blind handler owner saved copy agree]
      exact same ▸ .refl cells _
  | none =>
      rw [write_of_uncovered _ owner, write_of_uncovered _ owner]
      refine ⟨_, rfl, fun address elsewhere => ?_, fun address _ => ?_⟩
      · have apart : address ≠ cell := by
          rintro rfl
          exact elsewhere here
        rw [Ram.get_set_of_ne _ _ apart, Ram.get_set_of_ne _ _ apart]
      · by_cases apart : address = cell
        · rwa [apart, Ram.get_set_self, Ram.get_set_self]
        · rw [Ram.get_set_of_ne _ _ apart, Ram.get_set_of_ne _ _ apart]
          exact fun _ _ => rfl

theorem Blind.saveFrame {pointer : Byte} (blind : bus.Blind (Registers.stackCell (pointer - 2)))
    (here : cells (Registers.stackCell (pointer - 2))) (resume : Word) {saved copy : Byte}
    (agree : AgreeButDecimal saved copy) :
    Marked cells (bus.saveFrame pointer resume saved) (bus.saveFrame pointer resume copy) := by
  have still : ((bus.write (Registers.stackCell pointer) resume.high).write
      (Registers.stackCell (pointer - 1)) resume.low).Blind (Registers.stackCell (pointer - 2)) :=
    (blind_congr (by simp)).mpr blind
  exact still.write here agree

/-- A program that keeps away from the cells does not notice. -/
theorem Marked.run {α : Type} (marked : Marked cells bus other) {program : Program α}
    (apart : ∀ transfer ∈ program.accesses bus, ¬ cells transfer.address) :
    (program.run other).1 = (program.run bus).1 ∧
      program.accesses other = program.accesses bus ∧
      Marked cells (program.run bus).2 (program.run other).2 := by
  obtain ⟨ram, rfl, visible, agree⟩ := marked
  have veils : Ram.Veils cells bus.ram ram bus.ram ram := ⟨visible, fun _ _ => rfl, fun _ _ => rfl⟩
  have spares : bus.Spares cells (program.accesses bus) := by
    rintro address ⟨-, transfer, member, rfl⟩
    exact apart transfer member
  obtain ⟨after, result, transfers, last⟩ := Program.run_withRam veils spares
  rw [result]
  refine ⟨rfl, transfers, after, rfl, last.visible, fun address here => ?_⟩
  rw [last.below address here, last.above address here]
  exact agree address here

theorem Marked.mono {wider : Word → Prop} (marked : Marked cells bus other)
    (includes : ∀ address, cells address → wider address) : Marked wider bus other := by
  obtain ⟨ram, same, visible, agree⟩ := marked
  refine ⟨ram, same, fun address elsewhere => visible address (mt (includes address) elsewhere), ?_⟩
  intro address _
  by_cases here : cells address
  · exact agree address here
  · rw [visible address here]
    exact fun _ _ => rfl

end Bus

/-! ## Programs -/

/-- The second program makes the accesses of the first, and leaves what the first leaves, but for
the decimal flag and its copies in some cells. -/
structure Program.Follows (cells : Word → Prop) (bus : Bus World)
    (program other : Program Registers) : Prop where
  registers : ∃ decimal, (other.run bus).1 = (program.run bus).1.withDecimal decimal
  marked : Bus.Marked cells (program.run bus).2 (other.run bus).2
  transfers : List.Forall₂ (Access.Marked cells) (program.accesses bus) (other.accesses bus)

namespace Registers

variable {bus : Bus World} {cells : Word → Prop}

theorem address_ne_of_vector (kind : Interrupt) (pointer : Byte) (bus : Bus World) :
    ∀ transfer ∈ (Program.readWord kind.vector).accesses bus,
      transfer.address ≠ stackCell pointer := by
  obtain ⟨low, high⟩ := vector_ne_stackCell kind pointer
  intro transfer member
  rcases List.mem_cons.mp member with rfl | member
  · exact low
  · obtain rfl := List.mem_singleton.mp member
    exact high

theorem enter_follows (registers : Registers) (decimal : Bool) (kind : Interrupt)
    (blind : bus.Blind (stackCell (registers.sp - 2)))
    (here : cells (stackCell (registers.sp - 2))) :
    Program.Follows cells bus (registers.enter kind)
      ((registers.withDecimal decimal).enter kind) := by
  have agree := registers.status.pushed_withDecimal decimal (kind == Interrupt.brk)
  have frames : Bus.Marked (· = stackCell (registers.sp - 2))
      (bus.saveFrame registers.sp registers.pc (registers.status.pushed (kind == .brk)))
      (bus.saveFrame (registers.withDecimal decimal).sp (registers.withDecimal decimal).pc
        ((registers.withDecimal decimal).status.pushed (kind == .brk))) := by
    refine blind.saveFrame ?_ registers.pc agree
    rfl
  -- The vector lies outside the stack, so reading it does not show which status was saved.
  obtain ⟨target, transfers, after⟩ :=
    frames.run (address_ne_of_vector kind (registers.sp - 2) _)
  constructor
  case registers =>
    refine ⟨decimal, ?_⟩
    rw [registers.run_enter, (registers.withDecimal decimal).run_enter]
    dsimp only
    rw [target]
    rfl
  case marked =>
    rw [registers.run_enter, (registers.withDecimal decimal).run_enter]
    exact after.mono fun address same => same ▸ here
  case transfers =>
    rw [registers.accesses_enter, (registers.withDecimal decimal).accesses_enter, transfers]
    refine .cons (.same _) (.cons (.same _) (.cons (.stored here agree) ?_))
    exact Access.forall_marked_same cells _

theorem push_follows (registers : Registers) (decimal : Bool)
    (blind : bus.Blind (stackCell registers.sp)) (here : cells (stackCell registers.sp)) :
    Program.Follows cells bus (registers.push (registers.status.pushed true))
      ((registers.withDecimal decimal).push
        ((registers.withDecimal decimal).status.pushed true)) where
  registers := ⟨decimal, rfl⟩
  marked := blind.write here (registers.status.pushed_withDecimal decimal true)
  transfers := .cons (.stored here (registers.status.pushed_withDecimal decimal true)) .nil

end Registers

namespace Mnemonic

def statusCell (registers : Registers) : Mnemonic → Option Word
  | php => some (Registers.stackCell registers.sp)
  | brk => some (Registers.stackCell (registers.sp - 2))
  | _ => none

theorem execute_follows (mnemonic : Mnemonic) (operand : Operand) (registers : Registers)
    (decimal : Bool) {bus : Bus World} {cells : Word → Prop}
    (unseen : ∀ cell, mnemonic.statusCell registers = some cell → bus.Blind cell ∧ cells cell) :
    Program.Follows cells bus (mnemonic.action.execute false operand registers)
      (mnemonic.action.execute false operand (registers.withDecimal decimal)) := by
  by_cases saving : mnemonic = .php ∨ mnemonic = .brk
  · obtain rfl | rfl := saving
    · obtain ⟨blind, here⟩ := unseen _ rfl
      exact registers.push_follows decimal blind here
    · obtain ⟨blind, here⟩ := unseen _ rfl
      exact (registers.advance 1).enter_follows decimal .brk blind here
  · obtain ⟨flag, same⟩ := execute_withDecimal (not_or.mp saving) operand registers decimal
    rw [same]
    constructor
    case registers =>
      rw [Program.run_bind, Program.run_done]
      exact ⟨_, rfl⟩
    case marked =>
      rw [Program.run_bind, Program.run_done]
      exact .refl cells _
    case transfers =>
      rw [Program.accesses_bind, Program.accesses_done, List.append_nil]
      exact Access.forall_marked_same cells _

end Mnemonic

end Nmos6502
