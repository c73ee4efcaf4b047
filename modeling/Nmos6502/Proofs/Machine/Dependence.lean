import Nmos6502.Proofs.Bus.Veil
import Nmos6502.Proofs.Machine.Budget
import Nmos6502.Proofs.Machine.Likeness
import Nmos6502.Proofs.Machine.Reach

/-!
# What a history depends on

All that a machine does goes over the bus, but for an image that is loaded and a cell that is
peeked at.  So a cell of the memory that no moment touches (`Moment.Touches`) might as well
hold another byte: the history is the same, moment by moment, and the byte is still there in
the end (`depends_on_touched`).  In particular nothing depends on the memory under a device.
-/

set_option autoImplicit false

namespace Nmos6502

variable {World : Type}

namespace Machine

def withRam (machine : Machine World) (ram : Ram) : Machine World :=
  { machine with bus := machine.bus.withRam ram }

/-- The request reaches this cell of the memory past the bus and the devices on it. -/
def Request.ReachesInto (address : Word) : Request World → Prop
  | .bus (.load image start) =>
      start.toNat + image.length ≤ 0x10000 ∧ (address - start).toNat < image.length
  | .bus (.peek target) => target = address
  | _ => False

end Machine

def Moment.Touches (moment : Moment World) (address : Word) : Prop :=
  moment.machine.bus.Touches moment.accesses address ∨ moment.request.ReachesInto address

namespace Machine

variable {hidden : Word → Prop} {below above : Ram}

/-- The machines differ in what the hidden cells hold and in nothing else. -/
def Veiled (hidden : Word → Prop) (below above : Ram) (machine other : Machine World) : Prop :=
  ∃ ram, other = machine.withRam ram ∧ Ram.Veils hidden below above machine.bus.ram ram

theorem likeness_veiled :
    Likeness (Veiled hidden below above : Machine World → Machine World → Prop) where
  stopRequested := by
    rintro machine other ⟨ram, rfl, -⟩
    rfl
  clearStop := by
    rintro machine other ⟨ram, rfl, veils⟩
    exact ⟨ram, rfl, veils⟩

theorem step_withRam {machine : Machine World} {ram after : Ram}
    (runs : machine.cpu.step.run (machine.bus.withRam ram) =
      ((machine.cpu.step.run machine.bus).1, (machine.cpu.step.run machine.bus).2.withRam after)) :
    (machine.withRam ram).step = (machine.step.1, machine.step.2.withRam after) := by
  have opened : (machine.withRam ram).cpu.step.run (machine.withRam ram).bus = _ := runs
  unfold step
  rw [opened]
  cases machine.cpu.step.run machine.bus with
  | mk outcome bus => cases outcome <;> rfl

theorem reply_withRam {α : Type} {bus : Bus World} {ram : Ram} {program : Program α}
    (wrap : α → Bus.Reply) (veils : Ram.Veils hidden below above bus.ram ram)
    (spares : bus.Spares hidden (program.accesses bus)) :
    ∃ after,
      (bus.withRam ram).reply wrap program =
          ((bus.reply wrap program).1, (bus.reply wrap program).2.withRam after) ∧
        program.accesses (bus.withRam ram) = program.accesses bus ∧
        Ram.Veils hidden below above (bus.reply wrap program).2.ram after := by
  obtain ⟨after, result, transfers, last⟩ := Program.run_withRam veils spares
  refine ⟨after, ?_, transfers, last⟩
  rw [Bus.reply, result]
  rfl

theorem performBus_withRam {bus : Bus World} {ram : Ram} {request : Bus.Request World}
    (veils : Ram.Veils hidden below above bus.ram ram)
    (spares : bus.Spares hidden (bus.accessesOf request))
    (clear : ∀ address, hidden address → ¬ (Request.bus request).ReachesInto address) :
    ∃ after,
      (bus.withRam ram).perform request =
          ((bus.perform request).1, (bus.perform request).2.withRam after) ∧
        (bus.withRam ram).accessesOf request = bus.accessesOf request ∧
        Ram.Veils hidden below above (bus.perform request).2.ram after := by
  cases request with
  | load image start =>
      have apart : start.toNat + image.length ≤ 0x10000 →
          ∀ address, (address - start).toNat < image.length → ¬ hidden address :=
        fun fits address inside covered => clear address covered ⟨fits, inside⟩
      obtain ⟨after, result, last⟩ := Bus.load_withRam veils apart
      exact ⟨after, result, rfl, last⟩
  | peek address =>
      have open_ : ¬ hidden address := fun covered => clear address covered rfl
      refine ⟨ram, ?_, rfl, veils⟩
      exact Prod.ext (congrArg Bus.Reply.byte (veils.visible address open_)) rfl
  | write address value =>
      obtain ⟨after, result, transfers, last⟩ := Program.run_withRam veils spares
      have writes : (bus.withRam ram).write address value =
          (bus.write address value).withRam after := congrArg Prod.snd result
      exact ⟨after, Prod.ext rfl writes, transfers, last⟩
  | read _ | readWord _ | readSplit _ _ | indirect _ | resolve _ _ =>
      exact reply_withRam _ veils spares
  | map _ | unmapAll | regionCount | describe => exact ⟨ram, rfl, rfl, veils⟩

/-- A moment at which no hidden cell is touched is the same for machines that differ in the
hidden cells. -/
theorem indifferent_of_untouched {moment : Moment World} (single : ¬ moment.request.IsRun)
    (untouched : ∀ address, hidden address → ¬ moment.Touches address) :
    moment.Indifferent (Veiled hidden below above) := by
  obtain ⟨machine, request⟩ := moment
  rintro other ⟨ram, rfl, veils⟩
  have spares : machine.bus.Spares hidden (Moment.accesses ⟨machine, request⟩) :=
    fun address touches covered => untouched address covered (Or.inl touches)
  -- It is enough that the request commutes with the other memory.
  suffices same : ∃ after,
      (machine.withRam ram).perform request =
          ((machine.perform request).1, (machine.perform request).2.withRam after) ∧
        Moment.accesses ⟨machine.withRam ram, request⟩ = Moment.accesses ⟨machine, request⟩ ∧
        Ram.Veils hidden below above (machine.perform request).2.bus.ram after by
    obtain ⟨after, result, transfers, last⟩ := same
    have reply := congrArg Prod.fst result
    have left := congrArg Prod.snd result
    exact ⟨⟨rfl, reply, transfers, ram, rfl, veils⟩, after, left, last⟩
  cases request with
  | run _ | runSteps _ => exact absurd trivial single
  | step =>
      obtain ⟨after, result, transfers, last⟩ := Program.run_withRam veils spares
      refine ⟨after, ?_, transfers, ?_⟩
      · rw [perform, step_withRam result]
        rfl
      · exact (congrArg Bus.ram machine.bus_step).symm ▸ last
  | reset =>
      obtain ⟨after, result, transfers, last⟩ := Program.run_withRam veils spares
      have resets : (machine.withRam ram).reset = machine.reset.withRam after := by
        have opened : (machine.withRam ram).cpu.reset.run (machine.withRam ram).bus = _ := result
        rw [reset, opened]
        rfl
      exact ⟨after, Prod.ext rfl resets, transfers, last⟩
  | push value =>
      obtain ⟨after, result, transfers, last⟩ := Program.run_withRam veils spares
      have pushes : (machine.withRam ram).push value = (machine.push value).withRam after := by
        have opened : ((machine.withRam ram).cpu.registers.push value).run
          (machine.withRam ram).bus = _ := result
        rw [push, opened]
        rfl
      exact ⟨after, Prod.ext rfl pushes, transfers, last⟩
  | pull =>
      obtain ⟨after, result, transfers, last⟩ := Program.run_withRam veils spares
      have pulls : (machine.withRam ram).pull =
          (machine.pull.1, machine.pull.2.withRam after) := by
        have opened : (machine.withRam ram).cpu.registers.pull.run
          (machine.withRam ram).bus = _ := result
        rw [pull, opened]
        rfl
      refine ⟨after, ?_, transfers, last⟩
      rw [perform, pulls]
      rfl
  | bus request =>
      obtain ⟨after, result, transfers, last⟩ := performBus_withRam veils spares
        fun address covered reaches => untouched address covered (Or.inr reaches)
      refine ⟨after, ?_, transfers, last⟩
      have opened : (machine.withRam ram).bus.perform request = _ := result
      rw [perform, opened]
      rfl
  | _ => exact ⟨ram, rfl, rfl, veils⟩

/-! ## Whole histories -/

theorem untouched_of_covered {machine : Machine World} {requests : List (Request World)}
    (covered : ∀ address, hidden address → ¬ machine.bus.Plain address)
    (ordinary : ∀ request ∈ requests, request.KeepsMapping ∧
      ∀ address, hidden address → ¬ request.ReachesInto address) :
    ∀ moment ∈ machine.moments requests, ∀ address, hidden address → ¬ moment.Touches address := by
  have each : ∀ moment ∈ machine.moments requests, moment.request.KeepsMapping ∧
      ∀ address, hidden address → ¬ moment.request.ReachesInto address := by
    intro moment member
    rcases request_of_mem_moments member with steps | listed
    · rw [steps]
      exact ⟨trivial, fun _ _ => id⟩
    · exact ordinary _ listed
  have same := ((machine.course_moments requests).invariant
    (motive := fun later => later.bus.regions = machine.bus.regions) (fun _ same => same)
    (fun moment member _ same => (regions_perform _ _ (each moment member).1).trans same) rfl).1
  intro moment member address inside touches
  rcases touches with ⟨plain, -⟩ | reaches
  · exact covered address inside ((Bus.plain_congr (same moment member).2).mp plain)
  · exact (each moment member).2 address inside reaches

/-- What a history that does not touch the hidden cells has in common with the history of the
machine that has another memory there: the replies, and of every moment the request, what
comes of it, the transfers, and the machine but for its memory.  In the end the two memories
agree but for the hidden cells, and these hold what they held. -/
structure Unaffected (hidden : Word → Prop) (ram : Ram) (machine : Machine World)
    (requests : List (Request World)) : Prop where
  replies : ((machine.withRam ram).performAll requests).1 = (machine.performAll requests).1
  moments : List.Forall₂
    (Moment.Agrees fun machine other => ∃ ram, other = machine.withRam ram)
    (machine.moments requests) ((machine.withRam ram).moments requests)
  last : ∃ after,
    ((machine.withRam ram).performAll requests).2 =
        (machine.performAll requests).2.withRam after ∧
      (∀ address, ¬ hidden address →
        after.get address = (machine.performAll requests).2.bus.ram.get address) ∧
      ∀ address, hidden address →
        after.get address = ram.get address ∧
          (machine.performAll requests).2.bus.ram.get address = machine.bus.ram.get address

theorem unaffected_of_untouched {machine : Machine World} {ram : Ram}
    {requests : List (Request World)}
    (visible : ∀ address, ¬ hidden address → ram.get address = machine.bus.ram.get address)
    (untouched : ∀ moment ∈ machine.moments requests,
      ∀ address, hidden address → ¬ moment.Touches address) :
    Unaffected hidden ram machine requests := by
  have alike : Veiled hidden machine.bus.ram ram machine (machine.withRam ram) :=
    ⟨ram, rfl, visible, fun _ _ => rfl, fun _ _ => rfl⟩
  have indifferent : ∀ moment ∈ machine.moments requests,
      moment.Indifferent (Veiled hidden machine.bus.ram ram) := fun moment member =>
    indifferent_of_untouched (not_isRun_of_mem_moments member) (untouched moment member)
  obtain ⟨replies, moments, after, last, veils⟩ :=
    performAll_alike likeness_veiled indifferent alike
  refine ⟨replies, ?_, after, last, veils.visible, ?_⟩
  · refine moments.imp fun moment other agrees => ?_
    obtain ⟨other, same, -⟩ := agrees.alike
    exact { agrees with alike := ⟨other, same⟩ }
  · exact fun address inside => ⟨veils.above address inside, veils.below address inside⟩

/-- A history depends on the cells that are touched in its course and on no others; cells under
devices are not touched while the mapping stays and no request goes past the bus. -/
theorem depends_on_touched (machine : Machine World) (hidden : Word → Prop) (ram : Ram)
    (visible : ∀ address, ¬ hidden address → ram.get address = machine.bus.ram.get address)
    (requests : List (Request World)) :
    ((∀ moment ∈ machine.moments requests,
        ∀ address, hidden address → ¬ moment.Touches address) →
      Unaffected hidden ram machine requests) ∧
    ((∀ address, hidden address → ¬ machine.bus.Plain address) →
      (∀ request ∈ requests, request.KeepsMapping ∧
        ∀ address, hidden address → ¬ request.ReachesInto address) →
      Unaffected hidden ram machine requests) :=
  ⟨unaffected_of_untouched visible,
    fun covered ordinary => unaffected_of_untouched visible (untouched_of_covered covered ordinary)⟩

/-- A store to a device passes over the byte of memory that lies under it. -/
theorem stoppingMachine_passes_over :
    let under := stoppingMachine.withRam (stoppingMachine.bus.ram.set 0xD000 0x55)
    (under.performAll [.step, .bus (.read 0xD000)]).1 = [.cycles 4, .bus (.byte 0)] ∧
      (under.performAll [.step, .bus (.read 0xD000)]).2.bus.ram.get 0xD000 = 0x55 := by
  have visible : ∀ address, ¬ address = 0xD000 →
      (stoppingMachine.bus.ram.set 0xD000 0x55).get address =
        stoppingMachine.bus.ram.get address :=
    fun _ different => Ram.get_set_of_ne _ _ different
  have covered : ∀ address, address = 0xD000 → ¬ stoppingMachine.bus.Plain address := by
    rintro address rfl
    exact Option.some_ne_none _
  obtain ⟨replies, -, after, last, -, held⟩ :=
    (depends_on_touched stoppingMachine (· = 0xD000) _ visible
      [.step, .bus (.read 0xD000)]).2 covered (by simp [Request.KeepsMapping, Request.ReachesInto])
  have gets : (stoppingMachine.performAll [.step, .bus (.read 0xD000)]).1 =
      [.cycles 4, .bus (.byte 0)] := rfl
  refine ⟨replies.trans gets, ?_⟩
  rw [last]
  exact (held 0xD000 rfl).1.trans (Ram.get_set_self _ _ _)

end Machine

end Nmos6502
