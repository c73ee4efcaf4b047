import Nmos6502.Machine.Request
import Nmos6502.Proofs.Interrupt.Frame

/-!
# Interrupt requests over a history

A log records, latest first, what the host did to the interrupt lines, the resets,
and which of the two kinds of step the processor took.  An NMI is due when the log
holds a pulse or a rising edge that no later reset and no later service of an NMI has
settled.  The latch of the machine says exactly this (`Chronicle.tracks`), for logs of
any length, so requests are neither lost nor served twice.

What a step does is read off the program that it runs on the bus, not off the latch:
`Cpu.Serves` and `Cpu.Fetches` compare whole programs, and no program is of two kinds.
-/

set_option autoImplicit false

namespace Nmos6502

/-! ## Logs -/

inductive LineEvent where
  | nmiLine (asserted : Bool)
  | nmiPulse
  | irqLine (asserted : Bool)
  | reset
  | served (kind : Interrupt)
  | fetched
  deriving DecidableEq, Repr

namespace LineEvent

def IsStep : LineEvent → Prop
  | served _ | fetched => True
  | _ => False

/-- The events after which earlier NMI requests no longer count. -/
def Settles : LineEvent → Prop
  | reset | served .nmi => True
  | _ => False

def nmiLevel : List LineEvent → Bool
  | [] => false
  | nmiLine asserted :: _ => asserted
  | _ :: older => nmiLevel older

def irqLevel : List LineEvent → Bool
  | [] => false
  | irqLine asserted :: _ => asserted
  | reset :: _ => false
  | _ :: older => irqLevel older

def Raises (older : List LineEvent) : LineEvent → Prop
  | nmiPulse => True
  | nmiLine asserted => asserted = true ∧ nmiLevel older = false
  | _ => False

/-- An NMI was requested and has neither been served nor dropped by a reset. -/
def NmiDue (log : List LineEvent) : Prop :=
  ∃ newer event older,
    log = newer ++ event :: older ∧ Raises older event ∧ ∀ later ∈ newer, ¬ Settles later

theorem not_nmiDue_nil : ¬ NmiDue [] := by
  rintro ⟨newer, event, older, split, -, -⟩
  simp at split

theorem nmiDue_cons {event : LineEvent} {older : List LineEvent} :
    NmiDue (event :: older) ↔ Raises older event ∨ (¬ Settles event ∧ NmiDue older) := by
  constructor
  · rintro ⟨newer, cause, before, split, raises, unsettled⟩
    cases newer with
    | nil =>
        obtain ⟨rfl, rfl⟩ := List.cons.inj split
        exact Or.inl raises
    | cons head newer =>
        obtain ⟨rfl, rfl⟩ := List.cons.inj split
        exact Or.inr ⟨unsettled event (List.mem_cons_self ..), newer, cause, before, rfl, raises,
          fun later member => unsettled later (List.mem_cons_of_mem _ member)⟩
  · rintro (raises | ⟨unsettled, newer, cause, before, rfl, raises, quiet⟩)
    · exact ⟨[], event, older, rfl, raises, by simp⟩
    · refine ⟨event :: newer, cause, before, rfl, raises, ?_⟩
      intro later member
      rcases List.mem_cons.mp member with rfl | member
      · exact unsettled
      · exact quiet later member

theorem not_nmiDue_settled {settled : LineEvent} {older : List LineEvent}
    (settles : Settles settled) : ¬ NmiDue (settled :: older) := by
  rw [nmiDue_cons]
  rintro (raises | ⟨unsettled, -⟩)
  · cases settled with
    | reset | served => exact raises
    | _ => exact settles
  · exact unsettled settles

theorem nmiDue_cons_of_quiet {event : LineEvent} {older : List LineEvent}
    (quiet : ¬ Raises older event) (unsettled : ¬ Settles event) :
    NmiDue (event :: older) ↔ NmiDue older := by
  rw [nmiDue_cons]
  constructor
  · rintro (raises | ⟨-, due⟩)
    · exact absurd raises quiet
    · exact due
  · exact fun due => Or.inr ⟨unsettled, due⟩

theorem nmiLevel_append {newer older : List LineEvent}
    (held : ∀ event ∈ newer, event ≠ nmiLine false) (high : nmiLevel older = true) :
    nmiLevel (newer ++ older) = true := by
  induction newer with
  | nil => exact high
  | cons event newer inductionHypothesis =>
      have rest := inductionHypothesis fun later member => held later (List.mem_cons_of_mem _ member)
      cases event with
      | nmiLine asserted =>
          cases asserted with
          | true => rfl
          | false => exact absurd rfl (held _ (List.mem_cons_self ..))
      | _ => exact rest

theorem not_nmiDue_of_settled {newer older : List LineEvent} {settled : LineEvent}
    (settles : Settles settled) (unpulsed : nmiPulse ∉ newer)
    (level : nmiLine true ∉ newer ∨ (nmiLine false ∉ newer ∧ nmiLevel older = true)) :
    ¬ NmiDue (newer ++ settled :: older) := by
  induction newer with
  | nil => exact not_nmiDue_settled settles
  | cons event newer inductionHypothesis =>
      simp only [List.mem_cons, not_or] at unpulsed level
      rw [List.cons_append, nmiDue_cons]
      rintro (raises | ⟨-, due⟩)
      · cases event with
        | nmiPulse => exact unpulsed.1 rfl
        | nmiLine asserted =>
            obtain ⟨rfl, low⟩ := raises
            obtain ⟨unasserted, -⟩ | ⟨⟨-, held⟩, high⟩ := level
            · exact unasserted rfl
            · have kept : nmiLevel (settled :: older) = true := by
                cases settled with
                | reset | served => exact high
                | _ => exact settles.elim
              have still := @nmiLevel_append newer _
                (fun later member same => held (same ▸ member)) kept
              exact absurd (low.symm.trans still) (by decide)
        | _ => exact raises
      · exact inductionHypothesis unpulsed.2 (level.imp And.right fun held => ⟨held.1.2, held.2⟩) due

end LineEvent

/-! ## The kind of a step -/

namespace Status

theorem pushed_injective (status : Status) {brk other : Bool}
    (same : status.pushed brk = status.pushed other) : brk = other := by
  have bit (brk : Bool) : (status.pushed brk).getLsbD 4 = brk := (status.getLsbD_toByte brk).2.2.2.2.1
  rw [← bit brk, same, bit other]

end Status

namespace Registers

/-- The transfers of an entry tell its kind. -/
theorem enter_injective {registers : Registers} {first second : Interrupt} {α : Type}
    {rest other : Registers → Program α}
    (same : (registers.enter first).bind rest = (registers.enter second).bind other) :
    first = second := by
  simp only [enter, pushWord, push, Program.writeByte, Program.readWord, Program.readSplit,
    Program.readByte, Program.bind_eq, Program.bind, Program.pure_eq] at same
  injection same with _ _ same
  injection same with _ _ same
  injection same with _ saved same
  injection same with target _
  have brk := Status.pushed_injective _ saved
  cases first <;> cases second <;> first
    | rfl
    | exact absurd target (by decide)
    | exact absurd brk (by decide)

theorem enter_ne_runInstruction {cpu : Cpu} {registers : Registers} {kind : Interrupt}
    {rest : Registers → Program (Except Fault Completed)} :
    (registers.enter kind).bind rest ≠ cpu.runInstruction := by
  intro same
  simp only [enter, pushWord, push, Program.writeByte, Cpu.runInstruction, Program.readByte,
    Program.bind_eq, Program.bind] at same
  cases same

end Registers

namespace Cpu

/-- The step enters the handler of this interrupt and does nothing else but take the
request. -/
def Serves (cpu : Cpu) (kind : Interrupt) : Prop :=
  ∃ interrupts, cpu.step = (cpu.registers.enter kind).bind fun registers =>
    .done (.ok ({ cpu with interrupts }.complete registers interruptCycles))

def Fetches (cpu : Cpu) : Prop := cpu.step = cpu.runInstruction

theorem serves_iff_requests {cpu : Cpu} {kind : Interrupt} :
    cpu.Serves kind ↔ cpu.Requests kind := by
  constructor
  · rintro ⟨interrupts, serves⟩
    obtain idle | ⟨other, requests⟩ := cpu.idle_or_requests
    · exact absurd (serves.symm.trans idle.step) Registers.enter_ne_runInstruction
    · obtain rfl := Registers.enter_injective (serves.symm.trans (step_of_requests requests))
      exact requests
  · intro requests
    exact ⟨cpu.linesTaken, step_of_requests requests⟩

theorem fetches_iff_idle {cpu : Cpu} : cpu.Fetches ↔ cpu.Idle := by
  constructor
  · intro fetches
    obtain idle | ⟨kind, requests⟩ := cpu.idle_or_requests
    · exact idle
    · have same := (step_of_requests requests).symm.trans fetches
      exact absurd same Registers.enter_ne_runInstruction
  · exact Idle.step

end Cpu

/-! ## Keeping the log -/

def LineEvent.apply (lines : InterruptLines) : LineEvent → InterruptLines
  | nmiLine asserted => lines.setNmiLine asserted
  | nmiPulse => lines.triggerNmi
  | irqLine asserted => lines.setIrqLine asserted
  | reset => lines.clear
  | served .nmi => { lines with nmiPending := false }
  | served _ | fetched => lines

/-- The lines say what the log says. -/
structure Tracks (log : List LineEvent) (lines : InterruptLines) : Prop where
  nmiLine : lines.nmiLine = LineEvent.nmiLevel log
  nmiPending : lines.nmiPending = true ↔ LineEvent.NmiDue log
  irqLine : lines.irqLine = LineEvent.irqLevel log

theorem Tracks.initial : Tracks [] {} :=
  ⟨rfl, iff_of_false Bool.false_ne_true LineEvent.not_nmiDue_nil, rfl⟩

theorem Tracks.event {log : List LineEvent} {lines : InterruptLines} (tracks : Tracks log lines)
    (event : LineEvent) : Tracks (event :: log) (event.apply lines) := by
  obtain ⟨level, pending, irq⟩ := tracks
  cases event with
  | nmiLine asserted =>
      refine ⟨rfl, ?_, irq⟩
      simp only [LineEvent.nmiDue_cons, LineEvent.Raises, LineEvent.Settles, LineEvent.apply,
        InterruptLines.setNmiLine, ← pending, ← level]
      cases lines.nmiPending <;> cases lines.nmiLine <;> cases asserted <;> decide
  | nmiPulse =>
      have due : LineEvent.NmiDue (.nmiPulse :: log) :=
        LineEvent.nmiDue_cons.mpr (Or.inl trivial)
      exact ⟨level, iff_of_true rfl due, irq⟩
  | irqLine asserted =>
      exact ⟨level, pending.trans (LineEvent.nmiDue_cons_of_quiet id id).symm, rfl⟩
  | reset =>
      have settled := @LineEvent.not_nmiDue_settled .reset log trivial
      exact ⟨level, iff_of_false Bool.false_ne_true settled, rfl⟩
  | fetched => exact ⟨level, pending.trans (LineEvent.nmiDue_cons_of_quiet id id).symm, irq⟩
  | served kind =>
      cases kind with
      | nmi =>
          have settled := @LineEvent.not_nmiDue_settled (.served .nmi) log trivial
          exact ⟨level, iff_of_false Bool.false_ne_true settled, irq⟩
      | irq | reset | brk =>
          exact ⟨level, pending.trans (LineEvent.nmiDue_cons_of_quiet id id).symm, irq⟩

namespace Machine

variable {World : Type}

def Request.IsAside : Request World → Prop
  | .push _ | .pull | .requestStop | .stopRequested | .setRegisters _ | .config | .bus _ => True
  | _ => False

/-- The histories of a machine, with their logs.  A run is entered as its steps and the
answer to a stop request. -/
inductive Chronicle (first : Machine World) : List LineEvent → Machine World → Prop where
  | first : Chronicle first [] first
  | nmiLine {log : List LineEvent} {machine : Machine World}
      (before : Chronicle first log machine) (asserted : Bool) :
      Chronicle first (.nmiLine asserted :: log) (machine.setNmiLine asserted)
  | nmiPulse {log : List LineEvent} {machine : Machine World}
      (before : Chronicle first log machine) :
      Chronicle first (.nmiPulse :: log) machine.triggerNmi
  | irqLine {log : List LineEvent} {machine : Machine World}
      (before : Chronicle first log machine) (asserted : Bool) :
      Chronicle first (.irqLine asserted :: log) (machine.setIrqLine asserted)
  | reset {log : List LineEvent} {machine : Machine World}
      (before : Chronicle first log machine) : Chronicle first (.reset :: log) machine.reset
  | served {log : List LineEvent} {machine : Machine World}
      (before : Chronicle first log machine) {kind : Interrupt}
      (serves : machine.cpu.Serves kind) : Chronicle first (.served kind :: log) machine.step.2
  | fetched {log : List LineEvent} {machine : Machine World}
      (before : Chronicle first log machine) (fetches : machine.cpu.Fetches) :
      Chronicle first (.fetched :: log) machine.step.2
  | aside {log : List LineEvent} {machine : Machine World}
      (before : Chronicle first log machine) {request : Request World}
      (unrelated : request.IsAside) : Chronicle first log (machine.perform request).2
  | clearStop {log : List LineEvent} {machine : Machine World}
      (before : Chronicle first log machine) : Chronicle first log machine.clearStop

theorem interrupts_aside (machine : Machine World) {request : Request World}
    (unrelated : request.IsAside) :
    (machine.perform request).2.cpu.interrupts = machine.cpu.interrupts := by
  cases request with
  | step | run | runSteps | reset | setNmiLine | triggerNmi | setIrqLine => exact unrelated.elim
  | _ => rfl

namespace Chronicle

theorem trans {first machine last : Machine World} {older newer : List LineEvent}
    (before : Chronicle first older machine) (after : Chronicle machine newer last) :
    Chronicle first (newer ++ older) last := by
  induction after with
  | first => exact before
  | nmiLine _ asserted inductionHypothesis => exact inductionHypothesis.nmiLine asserted
  | nmiPulse _ inductionHypothesis => exact inductionHypothesis.nmiPulse
  | irqLine _ asserted inductionHypothesis => exact inductionHypothesis.irqLine asserted
  | reset _ inductionHypothesis => exact inductionHypothesis.reset
  | served _ serves inductionHypothesis => exact inductionHypothesis.served serves
  | fetched _ fetches inductionHypothesis => exact inductionHypothesis.fetched fetches
  | aside _ unrelated inductionHypothesis => exact inductionHypothesis.aside unrelated
  | clearStop _ inductionHypothesis => exact inductionHypothesis.clearStop

theorem tracks {config : Config} {bus : Bus World} {log : List LineEvent}
    {machine : Machine World}
    (chronicle : Chronicle { cpu := Cpu.ofConfig config, bus } log machine) :
    Tracks log machine.cpu.interrupts := by
  induction chronicle with
  | first => exact Tracks.initial
  | nmiLine _ asserted inductionHypothesis => exact inductionHypothesis.event (.nmiLine asserted)
  | nmiPulse _ inductionHypothesis => exact inductionHypothesis.event .nmiPulse
  | irqLine _ asserted inductionHypothesis => exact inductionHypothesis.event (.irqLine asserted)
  | reset _ inductionHypothesis => exact inductionHypothesis.event .reset
  | @served log machine _ kind serves inductionHypothesis =>
      have requests := Cpu.serves_iff_requests.mp serves
      rw [step_of_requests requests]
      cases kind with
      | nmi => exact inductionHypothesis.event (.served .nmi)
      | irq =>
          exact Cpu.linesTaken_of_unlatched requests.1 ▸ inductionHypothesis.event (.served .irq)
      | reset | brk => exact requests.elim
  | fetched _ fetches inductionHypothesis =>
      rw [interrupts_step_of_idle (Cpu.fetches_iff_idle.mp fetches)]
      exact inductionHypothesis.event .fetched
  | aside _ unrelated inductionHypothesis =>
      rw [interrupts_aside _ unrelated]
      exact inductionHypothesis
  | clearStop _ inductionHypothesis => exact inductionHypothesis

end Chronicle

/-! ## Every history is in the log -/

def Request.Logs : Request World → List LineEvent → Prop
  | .step, events => ∃ event : LineEvent, event.IsStep ∧ events = [event]
  | .run _, events => ∀ event ∈ events, event.IsStep
  | .runSteps count, events => events.length ≤ count ∧ ∀ event ∈ events, event.IsStep
  | .reset, events => events = [.reset]
  | .setNmiLine asserted, events => events = [.nmiLine asserted]
  | .triggerNmi, events => events = [.nmiPulse]
  | .setIrqLine asserted, events => events = [.irqLine asserted]
  | _, events => events = []

def LogsAll : List (Request World) → List LineEvent → Prop
  | [], log => log = []
  | request :: rest, log => ∃ earlier later,
      log = later ++ earlier ∧ request.Logs earlier ∧ LogsAll rest later

namespace Chronicle

variable {first machine : Machine World} {log : List LineEvent}

theorem step (before : Chronicle first log machine) :
    ∃ event : LineEvent, event.IsStep ∧ Chronicle first (event :: log) machine.step.2 := by
  obtain idle | ⟨kind, requests⟩ := machine.cpu.idle_or_requests
  · exact ⟨.fetched, trivial, before.fetched (Cpu.fetches_iff_idle.mpr idle)⟩
  · exact ⟨.served kind, trivial, before.served (Cpu.serves_iff_requests.mpr requests)⟩

theorem run (machine : Machine World) (budget : Nat) :
    ∃ events, (∀ event ∈ events, event.IsStep) ∧
      Chronicle machine events (machine.run budget).2 := by
  refine runFrom_induction (motive := fun later =>
    ∃ events : List LineEvent, (∀ event ∈ events, event.IsStep) ∧ Chronicle machine events later)
    ?_ ?_ budget 0 machine ⟨[], by simp, .first⟩
  · rintro later ⟨events, steps, chronicle⟩
    obtain ⟨event, isStep, longer⟩ := chronicle.step
    exact ⟨event :: events, List.forall_mem_cons.mpr ⟨isStep, steps⟩, longer⟩
  · rintro later ⟨events, steps, chronicle⟩
    exact ⟨events, steps, chronicle.clearStop⟩

theorem runStepsFrom (consumed count : Nat) (machine : Machine World) :
    ∃ events : List LineEvent, events.length ≤ count ∧ (∀ event ∈ events, event.IsStep) ∧
      Chronicle machine events (machine.runStepsFrom consumed count).2 := by
  induction count generalizing consumed machine with
  | zero => exact ⟨[], Nat.le_refl 0, by simp, .first⟩
  | succ count inductionHypothesis =>
      have start : Chronicle machine [] machine := .first
      obtain ⟨event, isStep, chronicle⟩ := start.step
      unfold Machine.runStepsFrom
      split
      · rename_i cycles next completes
        rw [completes] at chronicle
        obtain ⟨events, atMost, steps, rest⟩ := inductionHypothesis (consumed + cycles) next
        refine ⟨events ++ [event], by simpa using atMost, ?_, chronicle.trans rest⟩
        intro later member
        rcases List.mem_append.mp member with member | member
        · exact steps later member
        · exact List.mem_singleton.mp member ▸ isStep
      · rename_i fault next refused
        rw [refused] at chronicle
        exact ⟨[event], by simp, by simpa using isStep, chronicle⟩

theorem perform (machine : Machine World) (request : Request World) :
    ∃ events, request.Logs events ∧ Chronicle machine events (machine.perform request).2 := by
  have start : Chronicle machine [] machine := .first
  cases request with
  | step =>
      obtain ⟨event, isStep, chronicle⟩ := start.step
      exact ⟨[event], ⟨event, isStep, rfl⟩, chronicle⟩
  | run budget => exact run machine budget
  | runSteps count =>
      obtain ⟨events, atMost, steps, chronicle⟩ := runStepsFrom 0 count machine
      exact ⟨events, ⟨atMost, steps⟩, chronicle⟩
  | reset => exact ⟨_, rfl, start.reset⟩
  | setNmiLine asserted => exact ⟨_, rfl, start.nmiLine asserted⟩
  | triggerNmi => exact ⟨_, rfl, start.nmiPulse⟩
  | setIrqLine asserted => exact ⟨_, rfl, start.irqLine asserted⟩
  | push | pull | requestStop | stopRequested | setRegisters | config | bus =>
      exact ⟨[], rfl, start.aside trivial⟩

theorem performAll (machine : Machine World) (requests : List (Request World)) :
    ∃ log, LogsAll requests log ∧ Chronicle machine log (machine.performAll requests).2 := by
  induction requests generalizing machine with
  | nil => exact ⟨[], rfl, .first⟩
  | cons request rest inductionHypothesis =>
      obtain ⟨earlier, logs, before⟩ := perform machine request
      obtain ⟨later, logsRest, after⟩ := inductionHypothesis (machine.perform request).2
      exact ⟨later ++ earlier, ⟨earlier, later, rfl, logs, logsRest⟩, before.trans after⟩

end Chronicle

/-! ## Requests are served once -/

/-- What the next step does, in terms of the log alone. -/
structure Decides (log : List LineEvent) (machine : Machine World) : Prop where
  nmi : machine.cpu.Serves .nmi ↔ LineEvent.NmiDue log
  irq : machine.cpu.Serves .irq ↔
    ¬ LineEvent.NmiDue log ∧ LineEvent.irqLevel log = true ∧
      machine.cpu.registers.status.irqDisable = false
  fetches : machine.cpu.Fetches ↔
    ¬ LineEvent.NmiDue log ∧
      ¬ (LineEvent.irqLevel log = true ∧ machine.cpu.registers.status.irqDisable = false)
  once : ∀ newer settled older, log = newer ++ settled :: older → settled.Settles →
    LineEvent.nmiPulse ∉ newer →
    (.nmiLine true ∉ newer ∨ .nmiLine false ∉ newer ∧ LineEvent.nmiLevel older = true) →
    ¬ machine.cpu.Serves .nmi
  irqKept : machine.cpu.Serves .irq → machine.step.2.cpu.interrupts = machine.cpu.interrupts
  refused : ∀ fault, machine.step.1 = .error fault →
    machine.cpu.Fetches ∧ machine.step.2.cpu.interrupts = machine.cpu.interrupts

/-- In every history of a new processor, the log decides what the next step does; and
every list of requests has such a history. -/
theorem requests_served_once (config : Config) (bus : Bus World) :
    (∀ log machine, Chronicle { cpu := Cpu.ofConfig config, bus } log machine →
        Decides log machine) ∧
      ∀ requests, ∃ log, LogsAll requests log ∧
        Chronicle { cpu := Cpu.ofConfig config, bus } log
          (performAll { cpu := Cpu.ofConfig config, bus } requests).2 := by
  refine ⟨fun log machine chronicle => ?_, Chronicle.performAll _⟩
  obtain ⟨level, pending, irq⟩ := chronicle.tracks
  have nmi : machine.cpu.Serves .nmi ↔ LineEvent.NmiDue log := by
    rw [Cpu.serves_iff_requests, ← pending]
    rfl
  refine ⟨nmi, ?_, ?_, ?_, ?_, ?_⟩
  · rw [Cpu.serves_iff_requests, ← pending, ← irq, Bool.not_eq_true]
    rfl
  · rw [Cpu.fetches_iff_idle, Cpu.Idle, ← pending, ← irq, Bool.not_eq_true,
      Classical.not_and_iff_not_or_not, Bool.not_eq_true, Bool.not_eq_false]
  · rintro newer settled older rfl settles unpulsed quiet
    rw [nmi]
    exact LineEvent.not_nmiDue_of_settled settles unpulsed quiet
  · intro serves
    have requests := Cpu.serves_iff_requests.mp serves
    rw [step_of_requests requests]
    exact Cpu.linesTaken_of_unlatched requests.1
  · intro fault refused
    obtain idle | ⟨kind, requests⟩ := machine.cpu.idle_or_requests
    · exact ⟨Cpu.fetches_iff_idle.mpr idle, interrupts_step_of_idle idle⟩
    · rw [step_of_requests requests] at refused
      exact absurd refused (by simp)

def pulsedMachine : Machine Unit :=
  ({ cpu := Cpu.ofConfig {}, bus := { world := () } : Machine Unit }.setNmiLine true).triggerNmi

/-- The edge and the pulse are one request, and the held line is no other. -/
theorem pulsedMachine_served :
    pulsedMachine.cpu.Serves .nmi ∧ ¬ pulsedMachine.step.2.cpu.Serves .nmi := by
  have started : Chronicle { cpu := Cpu.ofConfig {}, bus := { world := () } } []
      ({ cpu := Cpu.ofConfig {}, bus := { world := () } } : Machine Unit) := .first
  have raised : Chronicle _ [.nmiPulse, .nmiLine true] pulsedMachine :=
    (started.nmiLine true).nmiPulse
  have due : LineEvent.NmiDue [.nmiPulse, .nmiLine true] :=
    LineEvent.nmiDue_cons.mpr (Or.inl trivial)
  have serves := ((requests_served_once {} { world := () }).1 _ _ raised).nmi.mpr due
  refine ⟨serves, ?_⟩
  exact ((requests_served_once {} { world := () }).1 _ _ (raised.served serves)).once [] _ _ rfl
    trivial (by simp) (Or.inl (by simp))

end Machine

end Nmos6502
