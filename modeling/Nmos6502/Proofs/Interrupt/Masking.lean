import Nmos6502.Proofs.Machine.Moments
import Nmos6502.Proofs.Machine.StatusBytes

/-!
# The interrupt mask

As long as the interrupt-disable flag is set no IRQ is served, however long its line is
asserted.  A step changes the flag only if it masks or unmasks (`Machine.Masks`,
`Machine.Unmasks`): it serves an interrupt, runs one of SEI, CLI and BRK, or pulls a status
byte.  So a handler that an IRQ has entered is not entered again before a step has unmasked,
whatever the lines do meanwhile and whatever NMIs are served.
-/

set_option autoImplicit false

namespace Nmos6502

variable {World : Type}

namespace Machine

def Masked (machine : Machine World) : Prop := machine.cpu.registers.status.irqDisable = true

/-- The next step sets the interrupt-disable flag. -/
inductive Masks (machine : Machine World) : Prop where
  | service {kind : Interrupt} (serves : machine.cpu.Serves kind)
  | sei (runs : machine.RunsA .sei)
  | brk (runs : machine.RunsA .brk)
  | pulled {byte : Byte} (pulls : machine.PullsStatus byte) (set : byte.getLsbD 2 = true)

inductive Unmasks (machine : Machine World) : Prop where
  | cli (runs : machine.RunsA .cli)
  | pulled {byte : Byte} (pulls : machine.PullsStatus byte) (clear : byte.getLsbD 2 = false)

end Machine

namespace Moment

def ServesIrq (moment : Moment World) : Prop :=
  moment.request = .step ∧ moment.machine.cpu.Serves .irq

def Masks (moment : Moment World) : Prop :=
  (moment.request = .step ∧ moment.machine.Masks) ∨ moment.request = .reset

def Unmasks (moment : Moment World) : Prop :=
  moment.request = .step ∧ moment.machine.Unmasks

def LeavesStatus (moment : Moment World) : Prop :=
  ∀ registers, moment.request = .setRegisters registers →
    registers.status = moment.machine.cpu.registers.status

end Moment

/-! ## Single steps -/

theorem irqDisable_mem_flags {mnemonic : Mnemonic} :
    .irqDisable ∈ mnemonic.flags ↔ mnemonic ∈ [.cli, .sei, .brk, .plp, .rti] := by
  cases mnemonic <;> decide

namespace Machine

theorem not_serves_irq_of_masked {machine : Machine World} (masked : machine.Masked) :
    ¬ machine.cpu.Serves .irq := by
  intro serves
  obtain ⟨-, -, enabled⟩ := Cpu.serves_iff_requests.mp serves
  exact absurd (enabled.symm.trans masked) Bool.false_ne_true

theorem masks_or_unmasks_of_pulls {machine : Machine World} {byte : Byte}
    (pulls : machine.PullsStatus byte) : machine.Masks ∨ machine.Unmasks := by
  cases bit : byte.getLsbD 2 with
  | true => exact Or.inl (.pulled pulls bit)
  | false => exact Or.inr (.pulled pulls bit)

theorem Masks.masked {machine : Machine World} (masks : machine.Masks) :
    machine.step.2.Masked := by
  cases masks with
  | service serves =>
      rw [step_of_requests (Cpu.serves_iff_requests.mp serves), Registers.run_enter]
      rfl
  | sei runs | brk runs =>
      obtain ⟨⟨_, _, _, _⟩, executes, rfl⟩ := runs
      exact (step_effect executes).2.1.values
  | pulled pulls set =>
      rw [Masked, pulls.status_eq]
      exact set

theorem Unmasks.not_masked {machine : Machine World} (unmasks : machine.Unmasks) :
    ¬ machine.step.2.Masked := by
  cases unmasks with
  | cli runs =>
      obtain ⟨⟨_, _, _, _⟩, executes, rfl⟩ := runs
      have clear := (step_effect executes).2.1.values
      exact fun masked => Bool.false_ne_true (clear.symm.trans masked)
  | pulled pulls clear =>
      rw [Masked, pulls.status_eq]
      exact fun masked => Bool.false_ne_true (clear.symm.trans masked)

/-- Any other step leaves the flag alone. -/
theorem masked_step_iff {machine : Machine World} (noMask : ¬ machine.Masks)
    (noUnmask : ¬ machine.Unmasks) : machine.step.2.Masked ↔ machine.Masked := by
  obtain ⟨kind, requests⟩ | ⟨idle, undocumented⟩ | ⟨instruction, executes⟩ :=
    machine.requests_or_undocumented_or_executes
  · exact absurd (.service (Cpu.serves_iff_requests.mpr requests)) noMask
  · rw [step_of_undocumented idle undocumented]
    split <;> exact Iff.rfl
  · -- The instructions that may change the flag all mask or unmask, a PLP and an RTI by the
    -- byte that they pull.
    obtain ⟨-, effect, -⟩ := step_effect executes
    have runs {mnemonic : Mnemonic} (named : instruction.mnemonic = mnemonic) :
        machine.RunsA mnemonic := ⟨instruction, executes, named⟩
    have pulls {mnemonic : Mnemonic} (named : instruction.mnemonic = mnemonic)
        (pulling : mnemonic = .plp ∨ mnemonic = .rti) : False := by
      obtain ⟨byte, pulls⟩ := exists_pullsStatus pulling (runs named)
      exact (masks_or_unmasks_of_pulls pulls).elim noMask noUnmask
    have untouched : .irqDisable ∉ instruction.mnemonic.flags := by
      rw [irqDisable_mem_flags]
      simp only [List.mem_cons, List.not_mem_nil, or_false]
      rintro (cli | sei | brk | plp | rti)
      · exact noUnmask (.cli (runs cli))
      · exact noMask (.sei (runs sei))
      · exact noMask (.brk (runs brk))
      · exact pulls plp (Or.inl rfl)
      · exact pulls rti (Or.inr rfl)
    exact Iff.of_eq (congrArg (· = true) (effect.flags .irqDisable untouched))

end Machine

namespace Moment

theorem Masks.masked {moment : Moment World} (masks : moment.Masks) : moment.after.Masked := by
  obtain ⟨machine, request⟩ := moment
  rcases masks with ⟨steps, masks⟩ | resets
  · obtain rfl : request = .step := steps
    exact masks.masked
  · obtain rfl : request = .reset := resets
    rfl

theorem Unmasks.not_masked {moment : Moment World} (unmasks : moment.Unmasks) :
    ¬ moment.after.Masked := by
  obtain ⟨machine, request⟩ := moment
  obtain ⟨steps, unmasks⟩ := unmasks
  obtain rfl : request = .step := steps
  exact unmasks.not_masked

theorem masked_after {moment : Moment World} (single : ¬ moment.request.IsRun)
    (unwritten : moment.LeavesStatus) (noUnmask : ¬ moment.Unmasks)
    (masked : moment.machine.Masked) : moment.after.Masked := by
  obtain ⟨machine, request⟩ := moment
  cases request with
  | run _ | runSteps _ => exact absurd trivial single
  | reset => rfl
  | setRegisters registers =>
      have same : registers.status = machine.cpu.registers.status := unwritten registers rfl
      exact (congrArg Status.irqDisable same).trans masked
  | step =>
      by_cases masks : machine.Masks
      · exact masks.masked
      · exact (Machine.masked_step_iff masks fun unmasks => noUnmask ⟨rfl, unmasks⟩).mpr masked
  | _ => exact masked

end Moment

/-! ## Whole histories -/

namespace Machine

theorem Course.masked {first last : Machine World} {moments : List (Moment World)}
    (course : Course first moments last)
    (unwritten : ∀ moment ∈ moments, moment.LeavesStatus)
    (quiet : ∀ moment ∈ moments, ¬ moment.Unmasks) (masked : first.Masked) : last.Masked := by
  refine (course.invariant (motive := Masked) (fun _ => id) ?_ masked).2
  intro moment member single
  exact moment.masked_after single (unwritten moment member) (quiet moment member)

theorem Course.masked_since {first last : Machine World} {earlier quiet : List (Moment World)}
    {masking : Moment World} (course : Course first (earlier ++ masking :: quiet) last)
    (unwritten : ∀ moment ∈ earlier ++ masking :: quiet, moment.LeavesStatus)
    (masks : masking.Masks) (undisturbed : ∀ moment ∈ quiet, ¬ moment.Unmasks) :
    last.Masked := by
  obtain ⟨middle, -, rest⟩ := course.split
  obtain ⟨-, -, -, after⟩ := rest.head
  refine after.masked (fun moment member => unwritten moment ?_) undisturbed masks.masked
  exact List.mem_append_right _ (List.mem_cons_of_mem _ member)

/-- Once the flag is set it stays set, and no IRQ is served, until a step unmasks. -/
theorem Course.masked_until {first last : Machine World}
    {earlier quiet later : List (Moment World)} {masking moment : Moment World}
    (course : Course first (earlier ++ masking :: (quiet ++ moment :: later)) last)
    (unwritten : ∀ each ∈ earlier ++ masking :: (quiet ++ moment :: later), each.LeavesStatus)
    (masks : masking.Masks) (undisturbed : ∀ each ∈ quiet, ¬ each.Unmasks) :
    moment.machine.Masked ∧ ¬ moment.ServesIrq := by
  -- The moment starts from the machine that the quiet ones before it have left.
  have listed : earlier ++ masking :: (quiet ++ moment :: later) =
      (earlier ++ masking :: quiet) ++ moment :: later := by simp
  rw [listed] at course unwritten
  obtain ⟨middle, before, rest⟩ := course.split
  obtain ⟨same, -⟩ := rest.head
  have masked : moment.machine.Masked := by
    rw [Masked, same]
    exact before.masked_since (fun each member => unwritten each (List.mem_append_left _ member))
      masks undisturbed
  exact ⟨masked, fun serves => not_serves_irq_of_masked masked serves.2⟩

/-- A handler is not entered again by the IRQ line alone: between two services of an IRQ a step
unmasks.  Once a step or a reset has masked, the flag stays set and no IRQ is served until a
step unmasks. -/
theorem irq_not_reentered (machine : Machine World) (requests : List (Request World))
    (unwritten : ∀ moment ∈ machine.moments requests, moment.LeavesStatus) :
    (∀ earlier one between other later,
        machine.moments requests = earlier ++ one :: (between ++ other :: later) →
        one.ServesIrq → other.ServesIrq →
        ∃ moment ∈ between, moment.Unmasks ∧ ¬ moment.after.Masked) ∧
      (∀ earlier masking quiet moment later,
        machine.moments requests = earlier ++ masking :: (quiet ++ moment :: later) →
        masking.Masks → (∀ each ∈ quiet, ¬ each.Unmasks) →
        moment.machine.Masked ∧ ¬ moment.ServesIrq) ∧
      ∀ earlier masking quiet, machine.moments requests = earlier ++ masking :: quiet →
        masking.Masks → (∀ each ∈ quiet, ¬ each.Unmasks) →
        (machine.performAll requests).2.Masked := by
  have course := machine.course_moments requests
  refine ⟨?_, ?_, ?_⟩
  · intro earlier one between other later split serves again
    rw [split] at course unwritten
    refine Classical.byContradiction fun never => ?_
    have undisturbed : ∀ moment ∈ between, ¬ moment.Unmasks := by
      intro moment member unmasks
      exact never ⟨moment, member, unmasks, unmasks.not_masked⟩
    have masks : one.Masks := Or.inl ⟨serves.1, .service serves.2⟩
    exact (course.masked_until unwritten masks undisturbed).2 again
  · intro earlier masking quiet moment later split masks undisturbed
    rw [split] at course unwritten
    exact course.masked_until unwritten masks undisturbed
  · intro earlier masking quiet split masks undisturbed
    rw [split] at course unwritten
    exact course.masked_since unwritten masks undisturbed

/-- A machine whose IRQ line is held, with a handler at address zero whose second instruction
enables interrupts. -/
def heldMachine : Machine Unit where
  cpu := { registers := {}, config := {}, interrupts := { irqLine := true } }
  bus := { ram := Ram.zero.store 0 [0xEA, 0x58], world := () }

/-- The handler is entered again, but not before its CLI. -/
theorem heldMachine_reentered :
    ∃ one first second other, heldMachine.moments [.step, .step, .step, .step] =
          [one, first, second, other] ∧
        one.ServesIrq ∧ other.ServesIrq ∧ (first.Unmasks ∨ second.Unmasks) ∧
        ¬ first.ServesIrq := by
  have unwritten : ∀ moment ∈ heldMachine.moments [.step, .step, .step, .step],
      moment.LeavesStatus := by
    intro moment member registers writes
    have steps := request_of_mem_moments member
    rw [writes] at steps
    simp at steps
  obtain ⟨between, held, -⟩ := irq_not_reentered heldMachine _ unwritten
  have serves {cpu : Cpu} (requests : cpu.Requests .irq) : cpu.Serves .irq :=
    Cpu.serves_iff_requests.mpr requests
  have one : Moment.ServesIrq ⟨heldMachine, .step⟩ := ⟨rfl, serves ⟨rfl, rfl, rfl⟩⟩
  have other : Moment.ServesIrq ⟨heldMachine.step.2.step.2.step.2, .step⟩ :=
    ⟨rfl, serves ⟨by decide +kernel, by decide +kernel, by decide +kernel⟩⟩
  refine ⟨_, _, _, _, rfl, one, other, ?_, ?_⟩
  · obtain ⟨moment, member, unmasks, -⟩ := between [] _ [_, _] _ [] rfl one other
    rcases List.mem_cons.mp member with rfl | second
    · exact Or.inl unmasks
    · exact Or.inr (List.mem_singleton.mp second ▸ unmasks)
  · exact (held [] _ [] _ [_, _] rfl (Or.inl ⟨rfl, .service one.2⟩) (by simp)).2

end Machine

end Nmos6502
