import Nmos6502.Bus.Request
import Nmos6502.Proofs.Bus.Transfers

/-!
# The bus over a history

A log records, latest first, what the host did to a bus that was empty at first.  It says
who answers at an address: the region that was mapped first, of those mapped since the last
unmapping, whose range holds the address (`Answers`), or the memory if there is none
(`Uncovered`).  And it says what the memory holds there: the byte of the last image that
covers the address, or of the last write that no region took (`Holds`).

A bus is what its log says (`handlerAt_ofCalls`, `peek_ofCalls`), for logs of any length, and
`history_law` puts this together with the refusal of images that do not fit.
-/

set_option autoImplicit false

namespace Nmos6502

namespace Bus

variable {World : Type}

/-! ## Logs -/

/-- What a host does to a bus.  The ends of a range come in the order in which they are
given. -/
inductive Call (World : Type) where
  | map (one other : Word) (handler : Handler World)
  | unmapAll
  | load (image : List Byte) (start : Word)
  | read (address : Word)
  | write (address : Word) (value : Byte)

namespace Call

def request : Call World → Request World
  | map one other handler => .map (.between one other handler)
  | unmapAll => .unmapAll
  | load image start => .load image start
  | read address => .read address
  | write address value => .write address value

def unmaps : Call World → Bool
  | unmapAll => true
  | _ => false

def Covers (address : Word) : Call World → Prop
  | map one other _ =>
      min one.toNat other.toNat ≤ address.toNat ∧ address.toNat ≤ max one.toNat other.toNat
  | _ => False

instance (address : Word) (call : Call World) : Decidable (call.Covers address) := by
  cases call <;> unfold Covers <;> infer_instance

def offer (address : Word) : Call World → Option (Handler World)
  | map one other handler => if (map one other handler).Covers address then some handler else none
  | _ => none

theorem offer_eq_some_iff {address : Word} {call : Call World} {handler : Handler World} :
    call.offer address = some handler ↔
      call.Covers address ∧ ∃ one other, call = map one other handler := by
  cases call with
  | map one other mapped => simp [offer]
  | _ => simp [offer]

theorem offer_eq_none_iff {address : Word} {call : Call World} :
    call.offer address = none ↔ ¬ call.Covers address := by
  cases call with
  | map one other mapped => simp [offer]
  | _ => simp [offer, Covers]

end Call

def standing (log : List (Call World)) : List (Call World) :=
  log.takeWhile fun call => !call.unmaps

def Uncovered (log : List (Call World)) (address : Word) : Prop :=
  ∀ call ∈ standing log, ¬ call.Covers address

/-- The handler is that of the region which was mapped first among those that hold the
address, not counting any from before the last unmapping. -/
def Answers (log : List (Call World)) (address : Word) (handler : Handler World) : Prop :=
  ∃ newer one other older,
    standing log = newer ++ .map one other handler :: older ∧
      (Call.map one other handler).Covers address ∧ ∀ call ∈ older, ¬ call.Covers address

/-- After the older calls, this one puts the byte into the memory at the address: as a part
of an image that is accepted, or by a write that no region takes. -/
def Call.Stores (older : List (Call World)) (address : Word) (value : Byte) : Call World → Prop
  | load image start =>
      start.toNat + image.length ≤ 0x10000 ∧ start.toNat ≤ address.toNat ∧
        image[address.toNat - start.toNat]? = some value
  | write target written => target = address ∧ written = value ∧ Uncovered older address
  | _ => False

/-- The byte is the last one that a call stored at the address, or zero if none did. -/
inductive Holds (address : Word) : List (Call World) → Byte → Prop where
  | blank : Holds address [] 0
  | stored {call : Call World} {older : List (Call World)} {value : Byte}
      (stores : call.Stores older address value) : Holds address (call :: older) value
  | kept {call : Call World} {older : List (Call World)} {value : Byte}
      (untouched : ∀ other, ¬ call.Stores older address other)
      (held : Holds address older value) : Holds address (call :: older) value

/-! ## Who answers -/

section

variable {log : List (Call World)} {address : Word} {handler : Handler World}

theorem uncovered_nil : Uncovered ([] : List (Call World)) address := by
  intro call member
  simp [standing] at member

theorem uncovered_unmapAll : Uncovered (.unmapAll :: log) address := by
  intro call member
  simp [standing, Call.unmaps] at member

theorem uncovered_cons {call : Call World} (mapped : call.unmaps = false) :
    Uncovered (call :: log) address ↔ ¬ call.Covers address ∧ Uncovered log address := by
  simp [Uncovered, standing, mapped]

theorem not_answers_of_uncovered (uncovered : Uncovered log address) :
    ¬ Answers log address handler := by
  rintro ⟨newer, one, other, older, split, covers, -⟩
  exact uncovered _ (by simp [split]) covers

theorem answers_cons {call : Call World} (mapped : call.unmaps = false) :
    Answers (call :: log) address handler ↔
      Answers log address handler ∨ Uncovered log address ∧ call.offer address = some handler := by
  have longer : standing (call :: log) = call :: standing log := by simp [standing, mapped]
  rw [Call.offer_eq_some_iff]
  unfold Answers
  rw [longer]
  constructor
  · rintro ⟨newer, one, other, older, split, covers, first⟩
    cases newer with
    | nil =>
        obtain ⟨rfl, rfl⟩ := List.cons.inj split
        exact Or.inr ⟨first, covers, one, other, rfl⟩
    | cons head newer =>
        obtain ⟨-, split⟩ := List.cons.inj split
        exact Or.inl ⟨newer, one, other, older, split, covers, first⟩
  · rintro (⟨newer, one, other, older, split, covers, first⟩ | ⟨first, covers, one, other, rfl⟩)
    · exact ⟨call :: newer, one, other, older, by rw [split]; rfl, covers, first⟩
    · exact ⟨[], one, other, standing log, rfl, covers, first⟩

end

def ofCalls (world : World) : List (Call World) → Bus World
  | [] => { world }
  | call :: older => ((ofCalls world older).perform call.request).2

theorem handlerAt_congr {bus other : Bus World} (same : other.regions = bus.regions)
    (address : Word) : other.handlerAt address = bus.handlerAt address := by
  rw [handlerAt, same, handlerAt]

theorem contains_between_iff (one other address : Word) (handler : Handler World) :
    (Region.between one other handler).contains address = true ↔
      (Call.map one other handler).Covers address := by
  rw [Region.contains_between, Call.Covers]
  simp only [BitVec.le_def]
  omega

theorem handler_between (one other : Word) (handler : Handler World) :
    (Region.between one other handler).handler = handler := by
  unfold Region.between
  split <;> rfl

theorem handlerAt_perform (bus : Bus World) {call : Call World} (mapped : call.unmaps = false)
    (address : Word) :
    (bus.perform call.request).2.handlerAt address =
      (bus.handlerAt address).or (call.offer address) := by
  cases call with
  | unmapAll => cases mapped
  | map one other handler =>
      simp only [Call.request, perform, handlerAt, map, List.find?_append, Option.map_or,
        Call.offer, ← contains_between_iff]
      cases held : (Region.between one other handler).contains address with
      | true => simp [held, handler_between]
      | false => simp [held]
  | load image start =>
      obtain ⟨ram, loaded⟩ := bus.exists_perform_load image start
      rw [Call.request, loaded]
      exact Option.or_none.symm
  | read target =>
      exact (handlerAt_congr (bus.regions_read target) address).trans Option.or_none.symm
  | write target value =>
      exact (handlerAt_congr (bus.regions_write target value) address).trans Option.or_none.symm

theorem handlerAt_ofCalls (world : World) (log : List (Call World)) (address : Word) :
    (∀ handler, (ofCalls world log).handlerAt address = some handler ↔
        Answers log address handler) ∧
      ((ofCalls world log).handlerAt address = none ↔ Uncovered log address) := by
  induction log with
  | nil =>
      have free : (ofCalls world []).handlerAt address = none := rfl
      simp [free, uncovered_nil, not_answers_of_uncovered]
  | cons call log inductionHypothesis =>
      obtain ⟨answers, uncovered⟩ := inductionHypothesis
      cases mapped : call.unmaps with
      | true =>
          obtain rfl : call = .unmapAll := by cases call <;> simp_all [Call.unmaps]
          have free : (ofCalls world (.unmapAll :: log)).handlerAt address = none := rfl
          simp [free, uncovered_unmapAll, not_answers_of_uncovered]
      | false =>
          rw [ofCalls, handlerAt_perform _ mapped, Option.or_eq_none_iff, uncovered_cons mapped,
            ← uncovered, Call.offer_eq_none_iff, and_comm (a := ¬ _)]
          refine ⟨fun handler => ?_, Iff.rfl⟩
          rw [Option.or_eq_some_iff, answers_cons mapped, ← answers, ← uncovered]

/-! ## What the memory holds -/

theorem Holds.unique {log : List (Call World)} {address : Word} {value other : Byte}
    (first : Holds address log value) (second : Holds address log other) : value = other := by
  induction first with
  | blank =>
      cases second with
      | blank => rfl
  | @stored call older value stores =>
      cases second with
      | stored also =>
          cases call with
          | load image start => exact Option.some.inj (stores.2.2.symm.trans also.2.2)
          | write target written => exact stores.2.1.symm.trans also.2.1
          | map | unmapAll | read => exact stores.elim
      | kept untouched => exact absurd stores (untouched value)
  | kept untouched held inductionHypothesis =>
      cases second with
      | stored also => exact absurd also (untouched other)
      | kept _ also => exact inductionHypothesis also

theorem stores_load_iff {older : List (Call World)} {image : List Byte} {start address : Word}
    {value : Byte} (fits : start.toNat + image.length ≤ 0x10000) :
    (Call.load image start).Stores older address value ↔
      image[(address - start).toNat]? = some value := by
  simp only [Call.Stores, fits, true_and]
  rcases Nat.lt_or_ge address.toNat start.toNat with below | above
  · have far : image.length ≤ (address - start).toNat := by bv_omega
    rw [List.getElem?_eq_none far]
    exact iff_of_false (fun stores => Nat.not_le.mpr below stores.1) (by simp)
  · have offset : (address - start).toNat = address.toNat - start.toNat := by bv_omega
    rw [offset]
    exact and_iff_right above

theorem holds_perform {log : List (Call World)} {bus : Bus World} {address : Word}
    (held : Holds address log (bus.peek address))
    (uncovered : bus.handlerAt address = none ↔ Uncovered log address) (call : Call World) :
    Holds address (call :: log) ((bus.perform call.request).2.peek address) := by
  cases call with
  | map one other handler => exact .kept (fun _ => id) held
  | unmapAll => exact .kept (fun _ => id) held
  | read target =>
      have same : (bus.perform (.read target)).2.ram = bus.ram := bus.ram_read target
      rw [peek, Call.request, same]
      exact .kept (fun _ => id) held
  | write target value =>
      have written : (bus.perform (.write target value)).2 = bus.write target value := rfl
      rw [Call.request, written, peek]
      by_cases here : target = address
      · obtain rfl := here
        cases owner : bus.handlerAt target with
        | none =>
            rw [write_of_uncovered value owner, Ram.get_set_self]
            exact .stored ⟨rfl, rfl, uncovered.mp owner⟩
        | some handler =>
            rw [write_of_covered value owner]
            refine .kept (fun _ stores => ?_) held
            rw [uncovered.mpr stores.2.2] at owner
            cases owner
      · rw [ram_get_write_of_ne bus value (Ne.symm here)]
        exact .kept (fun _ stores => here stores.1) held
  | load image start =>
      rcases Nat.lt_or_ge 0x10000 (start.toNat + image.length) with exceeds | fits
      · rw [Call.request, perform_load_of_exceeds exceeds]
        exact .kept (fun _ stores => Nat.not_le.mpr exceeds stores.1) held
      · have within : image.length ≤ 0x10000 := by omega
        rw [Call.request, perform_load_of_fits fits, peek, Ram.get_store within]
        cases stored : image[(address - start).toNat]? with
        | some value => exact .stored ((stores_load_iff fits).mpr stored)
        | none =>
            refine .kept (fun other stores => ?_) held
            rw [stores_load_iff fits, stored] at stores
            cases stores

theorem holds_ofCalls (world : World) (log : List (Call World)) (address : Word) :
    Holds address log ((ofCalls world log).peek address) := by
  induction log with
  | nil =>
      have zero : (ofCalls world []).peek address = 0 := Ram.get_zero address
      rw [zero]
      exact .blank
  | cons call log inductionHypothesis =>
      exact holds_perform inductionHypothesis (handlerAt_ofCalls world log address).2 call

theorem peek_ofCalls {world : World} {log : List (Call World)} {address : Word} {value : Byte} :
    (ofCalls world log).peek address = value ↔ Holds address log value := by
  have held := holds_ofCalls world log address
  exact ⟨fun same => same ▸ held, fun other => held.unique other⟩

/-! ## The law -/

theorem performAll_ofCalls (world : World) (older calls : List (Call World)) :
    ((ofCalls world older).performAll (calls.map Call.request)).2 =
      ofCalls world (calls.reverse ++ older) := by
  induction calls generalizing older with
  | nil => rfl
  | cons call rest inductionHypothesis =>
      rw [List.reverse_cons, List.append_assoc]
      exact inductionHypothesis (call :: older)

/-- What a log says of the bus: who answers an access and what that does, what the memory
holds, and which images are refused. -/
structure Obeys (log : List (Call World)) (bus : Bus World) : Prop where
  sole : ∀ address, Uncovered log address ∨
    ∃ handler, Answers log address handler ∧ ∀ other, Answers log address other → other = handler
  /-- One call of the handler that answers, with the address on the bus, is all that
  happens. -/
  answered : ∀ address handler, Answers log address handler →
    bus.read address =
        ((handler.read address (bus.noticed handler)).1,
          bus.absorb (handler.read address (bus.noticed handler)).2) ∧
      (∀ value, bus.write address value =
        bus.absorb (handler.write address value (bus.noticed handler))) ∧
      ∀ effect, (bus.absorb effect).ram = bus.ram
  unanswered : ∀ address, Uncovered log address →
    bus.read address = (bus.ram.get address, bus) ∧
      ∀ value, bus.write address value = { bus with ram := bus.ram.set address value }
  peek : ∀ address value, bus.peek address = value ↔ Holds address log value
  refused : ∀ image start, 0x10000 < start.toNat + image.length →
    bus.perform (.load image start) = (.fault (.loadOutOfRange start image.length), bus)
  accepted : ∀ image start, start.toNat + image.length ≤ 0x10000 →
    bus.perform (.load image start) = (.done, { bus with ram := bus.ram.store start image })
  mapped : ∀ address handler region, Answers log address handler →
    (bus.map region).handlerAt address = some handler
  read_ram : ∀ address, (bus.read address).2.ram = bus.ram
  unmapped : ∀ address, bus.unmapAll.read address = (bus.peek address, bus.unmapAll) ∧
    ∀ value, bus.unmapAll.write address value =
      { bus.unmapAll with ram := bus.ram.set address value }

theorem obeys_ofCalls (world : World) (log : List (Call World)) :
    Obeys log (ofCalls world log) := by
  have answers {address : Word} {handler : Handler World} :=
    (handlerAt_ofCalls world log address).1 handler
  have uncovered {address : Word} := (handlerAt_ofCalls world log address).2
  constructor
  case sole =>
    intro address
    cases owner : (ofCalls world log).handlerAt address with
    | none => exact Or.inl (uncovered.mp owner)
    | some handler =>
        refine Or.inr ⟨handler, answers.mp owner, fun other answering => ?_⟩
        exact Option.some.inj ((answers.mpr answering).symm.trans owner)
  case answered =>
    intro address handler answering
    have owner := answers.mpr answering
    exact ⟨read_of_covered owner, fun value => write_of_covered value owner, fun _ => rfl⟩
  case unanswered =>
    intro address free
    have nobody := uncovered.mpr free
    exact ⟨read_of_uncovered nobody, fun value => write_of_uncovered value nobody⟩
  case peek => exact fun address value => peek_ofCalls
  case refused => exact fun image start => perform_load_of_exceeds
  case accepted => exact fun image start => perform_load_of_fits
  case mapped => exact fun address handler region held => handlerAt_map region (answers.mpr held)
  case read_ram => exact ram_read _
  case unmapped =>
    intro address
    exact ⟨read_of_uncovered rfl, fun value => write_of_uncovered value rfl⟩

/-- A bus that was empty at first is what the log of its calls says, whatever these are. -/
theorem history_law (world : World) (calls : List (Call World)) :
    Obeys calls.reverse (performAll { world } (calls.map Call.request)).2 := by
  have replayed : (performAll { world } (calls.map Call.request)).2 =
      ofCalls world (calls.reverse ++ []) := performAll_ofCalls world [] calls
  rw [replayed, List.append_nil]
  exact obeys_ofCalls world calls.reverse

end Bus

end Nmos6502
