import Nmos6502.Proofs.Instruction.Effects
import Nmos6502.Proofs.Interrupt.History
import Nmos6502.Proofs.Status.Packed

/-!
# Status bytes on the stack

The status goes to the stack in two copies: a PHP and a software break store one with the break
bit set, an interrupt one with the break bit clear.  It comes back by a PLP or an RTI.  Which
byte is stored or pulled is read off the last accesses of the step (`Machine.SavesStatus`,
`Machine.PullsStatus`), so nothing is said about who answers them.
-/

set_option autoImplicit false

namespace Nmos6502

variable {World : Type}

namespace Machine

def statusByte (machine : Machine World) : Byte := machine.cpu.registers.status.bits

/-- The next step stores this byte as the status, with the break bit set or not. -/
inductive SavesStatus (machine : Machine World) : Bool → Byte → Prop where
  | php (runs : machine.RunsA .php) {saved : Byte}
      (last : [.write (Registers.stackCell machine.cpu.registers.sp) saved] <:+
        machine.cpu.step.accesses machine.bus) : SavesStatus machine true saved
  | brk (runs : machine.RunsA .brk) {saved low high : Byte}
      (last : [.write (Registers.stackCell (machine.cpu.registers.sp - 2)) saved,
        .read 0xFFFE low, .read 0xFFFF high] <:+ machine.cpu.step.accesses machine.bus) :
      SavesStatus machine true saved
  | interrupt {kind : Interrupt} (serves : machine.cpu.Serves kind) {saved low high : Byte}
      (last : [.write (Registers.stackCell (machine.cpu.registers.sp - 2)) saved,
        .read kind.vector low, .read (kind.vector + 1) high] <:+
          machine.cpu.step.accesses machine.bus) : SavesStatus machine false saved

inductive PullsStatus (machine : Machine World) (pulled : Byte) : Prop where
  | plp (runs : machine.RunsA .plp)
      (last : [.read (Registers.stackCell (machine.cpu.registers.sp + 1)) pulled] <:+
        machine.cpu.step.accesses machine.bus)
  | rti (runs : machine.RunsA .rti) {low high : Byte}
      (last : [.read (Registers.stackCell (machine.cpu.registers.sp + 1)) pulled,
        .read (Registers.stackCell (machine.cpu.registers.sp + 2)) low,
        .read (Registers.stackCell (machine.cpu.registers.sp + 3)) high] <:+
          machine.cpu.step.accesses machine.bus)

/-! ## The last accesses of a step -/

-- Two ends of one list that are equally long are the same, so a byte that is found in the last
-- accesses is the one that is known to be there.

theorem suffix_unique {first second transfers : List Access} (one : first <:+ transfers)
    (other : second <:+ transfers) (same : first.length = second.length) : first = second :=
  (List.suffix_of_suffix_length_le one other (Nat.le_of_eq same)).eq_of_length same

theorem exists_dataTransfers {machine : Machine World} {instruction : Instruction}
    (executes : machine.Executes instruction) :
    ∃ address data, instruction.DataTransfers machine.cpu.registers address data ∧
      data <:+ machine.cpu.step.accesses machine.bus :=
  ⟨_, _, Instruction.dataTransfers_execute (fits_located executes) _ _ _, suffix_accesses executes⟩

theorem last_of_php {machine : Machine World} (runs : machine.RunsA .php) :
    [.write (Registers.stackCell machine.cpu.registers.sp)
        (machine.cpu.registers.status.pushed true)] <:+
      machine.cpu.step.accesses machine.bus := by
  obtain ⟨⟨_, _, _, _⟩, executes, rfl⟩ := runs
  obtain ⟨_, _, rfl, last⟩ := exists_dataTransfers executes
  rwa [Status.pushed_true]

theorem last_of_brk {machine : Machine World} (runs : machine.RunsA .brk) :
    ∃ low high, [.write (Registers.stackCell (machine.cpu.registers.sp - 2))
          (machine.cpu.registers.status.pushed true),
        .read 0xFFFE low, .read 0xFFFF high] <:+ machine.cpu.step.accesses machine.bus := by
  obtain ⟨⟨_, _, _, _⟩, executes, rfl⟩ := runs
  obtain ⟨_, _, ⟨low, high, rfl⟩, last⟩ := exists_dataTransfers executes
  rw [Status.pushed_true]
  exact ⟨low, high, ((List.suffix_cons _ _).trans (List.suffix_cons _ _)).trans last⟩

theorem last_of_serves {machine : Machine World} {kind : Interrupt}
    (serves : machine.cpu.Serves kind) :
    ∃ low high, [.write (Registers.stackCell (machine.cpu.registers.sp - 2))
          (machine.cpu.registers.status.pushed false),
        .read kind.vector low, .read (kind.vector + 1) high] <:+
      machine.cpu.step.accesses machine.bus := by
  have requests := Cpu.serves_iff_requests.mp serves
  rw [accesses_of_requests requests, Registers.accesses_enter, requests.hardware]
  exact ⟨_, _, (List.suffix_cons _ _).trans (List.suffix_cons _ _)⟩

theorem last_of_plp {machine : Machine World} (runs : machine.RunsA .plp) :
    ∃ pulled, [.read (Registers.stackCell (machine.cpu.registers.sp + 1)) pulled] <:+
      machine.cpu.step.accesses machine.bus := by
  obtain ⟨⟨_, _, _, _⟩, executes, rfl⟩ := runs
  obtain ⟨_, _, ⟨pulled, rfl⟩, last⟩ := exists_dataTransfers executes
  exact ⟨pulled, last⟩

theorem last_of_rti {machine : Machine World} (runs : machine.RunsA .rti) :
    ∃ pulled low high, [.read (Registers.stackCell (machine.cpu.registers.sp + 1)) pulled,
        .read (Registers.stackCell (machine.cpu.registers.sp + 2)) low,
        .read (Registers.stackCell (machine.cpu.registers.sp + 3)) high] <:+
      machine.cpu.step.accesses machine.bus := by
  obtain ⟨⟨_, _, _, _⟩, executes, rfl⟩ := runs
  obtain ⟨_, _, ⟨pulled, low, high, rfl⟩, last⟩ := exists_dataTransfers executes
  exact ⟨pulled, low, high, last⟩

/-! ## Saving -/

theorem SavesStatus.saved_eq {machine : Machine World} {brk : Bool} {saved : Byte}
    (saves : machine.SavesStatus brk saved) :
    saved = Packed.pushed machine.statusByte brk := by
  refine Eq.trans ?_ (machine.cpu.registers.status.pushed_eq brk)
  cases saves with
  | php runs last =>
      have same := suffix_unique last (last_of_php runs) rfl
      injection same with written
      injection written
  | brk runs last =>
      obtain ⟨low, high, known⟩ := last_of_brk runs
      have same := suffix_unique last known rfl
      injection same with written
      injection written
  | interrupt serves last =>
      obtain ⟨low, high, known⟩ := last_of_serves serves
      have same := suffix_unique last known rfl
      injection same with written
      injection written

theorem exists_savesStatus {machine : Machine World} {mnemonic : Mnemonic}
    (saving : mnemonic = .php ∨ mnemonic = .brk) (runs : machine.RunsA mnemonic) :
    ∃ saved, machine.SavesStatus true saved := by
  rcases saving with rfl | rfl
  · exact ⟨_, .php runs (last_of_php runs)⟩
  · obtain ⟨low, high, last⟩ := last_of_brk runs
    exact ⟨_, .brk runs last⟩

theorem exists_savesStatus_of_serves {machine : Machine World} {kind : Interrupt}
    (serves : machine.cpu.Serves kind) : ∃ saved, machine.SavesStatus false saved := by
  obtain ⟨low, high, last⟩ := last_of_serves serves
  exact ⟨_, .interrupt serves last⟩

/-! ## Pulling -/

theorem exists_pullsStatus {machine : Machine World} {mnemonic : Mnemonic}
    (pulling : mnemonic = .plp ∨ mnemonic = .rti) (runs : machine.RunsA mnemonic) :
    ∃ pulled, machine.PullsStatus pulled := by
  rcases pulling with rfl | rfl
  · obtain ⟨pulled, last⟩ := last_of_plp runs
    exact ⟨pulled, .plp runs last⟩
  · obtain ⟨pulled, low, high, last⟩ := last_of_rti runs
    exact ⟨pulled, .rti runs last⟩

theorem PullsStatus.status_eq {machine : Machine World} {pulled : Byte}
    (pulls : machine.PullsStatus pulled) :
    machine.step.2.cpu.registers.status = Status.ofBits pulled := by
  cases pulls with
  | plp runs last =>
      obtain ⟨⟨_, _, _, _⟩, executes, rfl⟩ := runs
      obtain ⟨-, effect, -⟩ := step_effect executes
      obtain ⟨cell, byte, known, status⟩ := effect.values
      have same := suffix_unique last known rfl
      injection same with read
      injection read with _ same
      rw [status, same]
  | rti runs last =>
      obtain ⟨⟨_, _, _, _⟩, executes, rfl⟩ := runs
      obtain ⟨-, effect, -⟩ := step_effect executes
      obtain ⟨cell, byte, low, high, known, status⟩ := effect.values
      have same := suffix_unique last known rfl
      injection same with read
      injection read with _ same
      rw [status, same]

theorem PullsStatus.statusByte_eq {machine : Machine World} {pulled : Byte}
    (pulls : machine.PullsStatus pulled) :
    machine.step.2.statusByte = Packed.ofByte pulled := by
  rw [statusByte, pulls.status_eq, Status.bits_ofBits_eq]

end Machine

end Nmos6502
