import Nmos6502.Proofs.Machine.Moments
import Nmos6502.Proofs.Machine.StatusBytes

/-!
# The live status byte

From power on the status byte of a machine changes by the operations on a packed byte and in no
other way (`Moment.Evolves`): an instruction writes its own flags, an interrupt the
interrupt-disable flag, and a pulled byte is put right.  None of these lets the unused bit go
or the break bit in, so the byte is live at every moment of every history, whatever bytes a
program or a device puts on the stack.

The break bit is only in the copies that are stored, and there it tells PHP and BRK from an
interrupt.  A copy that is pulled gives the byte that it was made from.
-/

set_option autoImplicit false

namespace Nmos6502

variable {World : Type}

/-- How the status byte changes at a moment. -/
inductive Moment.Evolves (moment : Moment World) (before : Byte) : Byte → Prop where
  | service (steps : moment.request = .step) {kind : Interrupt}
      (serves : moment.machine.cpu.Serves kind) :
      Evolves moment before (Packed.write before .irqDisable true)
  | pull (steps : moment.request = .step) {pulled : Byte}
      (pulls : moment.machine.PullsStatus pulled) : Evolves moment before (Packed.ofByte pulled)
  | instruction (steps : moment.request = .step) {instruction : Instruction}
      (executes : moment.machine.Executes instruction)
      (own : instruction.mnemonic ≠ .plp ∧ instruction.mnemonic ≠ .rti) {after : Byte}
      (writes : Packed.Writes instruction.mnemonic.flags before after) :
      Evolves moment before after
  | undocumented (steps : moment.request = .step) (idle : moment.machine.cpu.Idle)
      (unknown : decode (moment.machine.bus.read moment.machine.cpu.registers.pc).1 = none) :
      Evolves moment before before
  | reset (resets : moment.request = .reset) : Evolves moment before Packed.initial
  | assigned {registers : Registers} (assigns : moment.request = .setRegisters registers)
      {after : Byte} (built : Packed.Built after) : Evolves moment before after
  | aside (idles : moment.request ≠ .step ∧ moment.request ≠ .reset ∧
      ∀ registers, moment.request ≠ .setRegisters registers) : Evolves moment before before

namespace Moment

theorem Evolves.live {moment : Moment World} {before after : Byte}
    (evolves : moment.Evolves before after) (live : Packed.Live before) : Packed.Live after := by
  cases evolves with
  | service => exact live.write _ _
  | pull => exact Packed.live_ofByte _
  | instruction _ _ _ writes => exact writes.live live
  | reset => exact Packed.live_fresh.write _ _
  | assigned _ built => exact built.live
  | undocumented | aside => exact live

end Moment

theorem bits_initialStatus : Cpu.initialStatus.bits = Packed.initial :=
  Status.bits_set {} .irqDisable true

namespace Machine

theorem evolves_step (machine : Machine World) :
    machine.stepMoment.Evolves machine.statusByte machine.step.2.statusByte := by
  obtain ⟨kind, requests⟩ | ⟨idle, undocumented⟩ | ⟨instruction, executes⟩ :=
    machine.requests_or_undocumented_or_executes
  · have entered :
        machine.step.2.statusByte = Packed.write machine.statusByte .irqDisable true := by
      rw [step_of_requests requests, statusByte, statusByte, ← Status.bits_set, Registers.run_enter]
      rfl
    rw [entered]
    exact .service rfl (Cpu.serves_iff_requests.mpr requests)
  · have kept : machine.step.2.statusByte = machine.statusByte := by
      rw [step_of_undocumented idle undocumented]
      split <;> rfl
    rw [kept]
    exact .undocumented rfl idle undocumented
  · by_cases pulling : instruction.mnemonic = .plp ∨ instruction.mnemonic = .rti
    · obtain ⟨pulled, pulls⟩ := exists_pullsStatus pulling ⟨instruction, executes, rfl⟩
      rw [pulls.statusByte_eq]
      exact .pull rfl pulls
    · obtain ⟨-, effect, -⟩ := step_effect executes
      exact .instruction rfl executes (not_or.mp pulling) (Status.writes_bits effect.flags)

end Machine

theorem Moment.evolves {moment : Moment World} (single : ¬ moment.request.IsRun) :
    moment.Evolves moment.machine.statusByte moment.after.statusByte := by
  obtain ⟨machine, request⟩ := moment
  cases request with
  | run _ | runSteps _ => exact absurd trivial single
  | step => exact machine.evolves_step
  | reset =>
      have started : (Moment.after ⟨machine, .reset⟩).statusByte = Packed.initial :=
        bits_initialStatus
      rw [started]
      exact .reset rfl
  | setRegisters registers => exact .assigned rfl registers.status.built_bits
  | _ => exact .aside (by simp)

namespace Machine

theorem live_statusByte (machine : Machine World) : Packed.Live machine.statusByte :=
  machine.cpu.registers.status.built_bits.live

/-- What is stored as the status and what becomes of it when it is pulled. -/
structure StoresStatus (machine : Machine World) : Prop where
  software : machine.RunsA .php ∨ machine.RunsA .brk → ∃ saved, machine.SavesStatus true saved
  hardware : ∀ kind, machine.cpu.Serves kind → ∃ saved, machine.SavesStatus false saved
  unused : ∀ brk saved, machine.SavesStatus brk saved → saved.getLsbD 5 = true
  brk : ∀ brk saved, machine.SavesStatus brk saved → saved.getLsbD 4 = brk
  others : ∀ brk saved, machine.SavesStatus brk saved →
    ∀ place, place ≠ 4 → saved.getLsbD place = machine.statusByte.getLsbD place
  restored : ∀ brk saved, machine.SavesStatus brk saved → ∀ later : Machine World,
    later.PullsStatus saved → later.step.2.statusByte = machine.statusByte

theorem storesStatus (machine : Machine World) : machine.StoresStatus := by
  have copy {brk : Bool} {saved : Byte} (saves : machine.SavesStatus brk saved) (flag : Flag) :
      saved.getLsbD flag.position =
        if flag = .brk then brk else machine.statusByte.getLsbD flag.position := by
    rw [saves.saved_eq, Packed.pushed, Packed.getLsbD_assign]
  constructor
  case software =>
    rintro (runs | runs)
    · exact exists_savesStatus (Or.inl rfl) runs
    · exact exists_savesStatus (Or.inr rfl) runs
  case hardware => exact fun kind => exists_savesStatus_of_serves
  case unused =>
    exact fun brk saved saves => (copy saves .unused).trans machine.live_statusByte.unused
  case brk => exact fun brk saved saves => copy saves .brk
  case others =>
    intro brk saved saves place different
    rcases Nat.lt_or_ge place 8 with inside | outside
    · obtain ⟨flag, rfl⟩ := Flag.exists_position inside
      rw [copy saves, if_neg]
      rintro rfl
      exact different rfl
    · rw [BitVec.getLsbD_of_ge _ _ outside, BitVec.getLsbD_of_ge _ _ outside]
  case restored =>
    intro brk saved saves later pulls
    rw [pulls.statusByte_eq, saves.saved_eq, machine.live_statusByte.ofByte_pushed]

/-- The operations on the status are those on a packed byte, which build live bytes only, and
from power on the status byte changes by them at each moment, so it is live throughout.  What
is stored of it on the stack is its copy with the break bit of the one who stores it, and gives
it back when it is pulled. -/
theorem status_byte_invariant (config : Config) (world : World)
    (requests : List (Request World)) :
    (∀ status : Status, status.Packs) ∧ (∀ byte, Packed.Built byte → Packed.Live byte) ∧
      (∀ moment ∈ (ofConfig config world).moments requests,
        moment.Evolves moment.machine.statusByte moment.after.statusByte ∧
          Packed.Live moment.machine.statusByte ∧ Packed.Live moment.after.statusByte) ∧
      Packed.Live ((ofConfig config world).performAll requests).2.statusByte ∧
      ∀ machine : Machine World, machine.StoresStatus := by
  have start : Packed.Live (ofConfig config world).statusByte := by
    have started : (ofConfig config world).statusByte = Packed.initial := bits_initialStatus
    rw [started]
    exact Packed.live_fresh.write _ _
  obtain ⟨each, last⟩ := ((ofConfig config world).course_moments requests).invariant
    (motive := fun machine => Packed.Live machine.statusByte) (fun _ live => live)
    (fun moment _ single live => (moment.evolves single).live live) start
  refine ⟨Status.packs, fun _ built => built.live, ?_, last, storesStatus⟩
  intro moment member
  obtain ⟨single, live⟩ := each moment member
  exact ⟨moment.evolves single, live, (moment.evolves single).live live⟩

/-- A PLP of all ones, and a PHP after it, which stores them again. -/
theorem pulledOnes_live :
    let requests : List (Request Unit) :=
      [.bus (.load [0x28, 0x08] 0), .bus (.load [0xFF] 0x01FE), .reset, .step, .step]
    let last := ((ofConfig {} ()).performAll requests).2
    last.statusByte = 0xEF ∧ Packed.Live last.statusByte ∧ last.bus.peek 0x01FE = 0xFF := by
  refine ⟨by decide +kernel, ?_, by decide +kernel⟩
  exact (status_byte_invariant {} () _).2.2.2.1

end Machine

end Nmos6502
