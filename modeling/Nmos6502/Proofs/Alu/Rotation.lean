import Nmos6502.Instruction.Mnemonic

/-!
# Shifts and rotations of a byte

A shift moves the bits of a byte by one place; one bit enters at one end and another leaves at the
other.  A rotation lets the carry enter, so a shift is a rotation of a clear carry
(`Shift.apply_eq_rotation`).  To the left a byte is doubled, to the right it is halved, and the
same equation read in both directions says so (`Shift.double` and `Shift.halve`).

The byte and the carry are a ring of nine bits, which a rotation turns by one place.  So rotations
in both directions restore the byte and the carry if they turn the ring by a multiple of nine in all
(`Shift.turnAll_eq_self`).
-/

set_option autoImplicit false

namespace Nmos6502

namespace Shift

def rotation : Shift → Shift
  | left | rotateLeft => rotateLeft
  | right | rotateRight => rotateRight

def entering : Shift → (carry : Bool) → Bool
  | rotateLeft, carry | rotateRight, carry => carry
  | left, _ | right, _ => false

@[simp] theorem rotation_rotation (operation : Shift) :
    operation.rotation.rotation = operation.rotation := by
  cases operation <;> rfl

@[simp] theorem entering_rotation (operation : Shift) (carry : Bool) :
    operation.rotation.entering carry = carry := by
  cases operation <;> rfl

theorem apply_eq_rotation (operation : Shift) (value : Byte) (carry : Bool) :
    operation.apply value carry = operation.rotation.apply value (operation.entering carry) := by
  cases operation with
  | left => simp [rotation, entering, apply]
  | right => simp [rotation, entering, apply]
  | rotateLeft | rotateRight => rfl

/-! ## Doubling and halving -/

theorem toNat_rotateLeft (value : Byte) (carry : Bool) :
    2 * value.toNat + carry.toNat =
      (rotateLeft.apply value carry).1.toNat + 256 * (rotateLeft.apply value carry).2.toNat := by
  have bound := value.isLt
  have one := carry.toNat_lt
  have leaving : (rotateLeft.apply value carry).2.toNat = value.toNat / 128 := by
    have top : (rotateLeft.apply value carry).2 = decide (128 ≤ value.toNat) :=
      value.msb_eq_getLsbD_last.symm.trans value.msb_eq_decide
    rw [top]
    by_cases high : 128 ≤ value.toNat
    · rw [decide_eq_true high, Bool.toNat_true]
      omega
    · rw [decide_eq_false high, Bool.toNat_false]
      omega
  have moved : (rotateLeft.apply value carry).1.toNat = 2 * value.toNat % 256 + carry.toNat := by
    have doubled : value.toNat <<< 1 % 2 ^ 8 = (value.toNat % 128) <<< 1 := by
      simp only [Nat.shiftLeft_eq]
      omega
    have low : carry.toNat % 2 ^ 8 = carry.toNat := Nat.mod_eq_of_lt (by omega)
    have joined := Nat.shiftLeft_add_eq_or_of_lt (i := 1) one (value.toNat % 128)
    simp only [apply]
    rw [BitVec.toNat_or, BitVec.toNat_shiftLeft, BitVec.toNat_setWidth, BitVec.toNat_ofBool, doubled,
      low, ← joined, Nat.shiftLeft_eq]
    omega
  omega

theorem toNat_rotateRight (value : Byte) (carry : Bool) :
    value.toNat + 256 * carry.toNat =
      2 * (rotateRight.apply value carry).1.toNat + (rotateRight.apply value carry).2.toNat := by
  have bound := value.isLt
  have one := carry.toNat_lt
  have leaving : (rotateRight.apply value carry).2.toNat = value.toNat % 2 := by
    have bottom : (rotateRight.apply value carry).2 = value.toNat.testBit 0 := rfl
    rw [bottom, Nat.testBit_zero]
    rcases Nat.mod_two_eq_zero_or_one value.toNat with even | odd
    · rw [even]
      rfl
    · rw [odd]
      rfl
  have moved : (rotateRight.apply value carry).1.toNat = value.toNat / 2 + 128 * carry.toNat := by
    have low : carry.toNat % 2 ^ 8 = carry.toNat := Nat.mod_eq_of_lt (by omega)
    have high : carry.toNat <<< 7 % 2 ^ 8 = carry.toNat <<< 7 := by
      rw [Nat.shiftLeft_eq]
      omega
    have half : value.toNat / 2 < 2 ^ 7 := by omega
    have joined := Nat.shiftLeft_add_eq_or_of_lt half carry.toNat
    simp only [apply]
    rw [BitVec.toNat_or, BitVec.toNat_ushiftRight, BitVec.toNat_shiftLeft, BitVec.toNat_setWidth,
      BitVec.toNat_ofBool, low, high, Nat.or_comm, Nat.shiftRight_eq_div_pow, ← joined, Nat.shiftLeft_eq]
    omega
  omega

section

variable {operation : Shift}

theorem double (leftward : operation.rotation = .rotateLeft) (value : Byte) (carry : Bool) :
    2 * value.toNat + (operation.entering carry).toNat =
      (operation.apply value carry).1.toNat + 256 * (operation.apply value carry).2.toNat := by
  rw [apply_eq_rotation, leftward]
  exact toNat_rotateLeft value _

theorem halve (rightward : operation.rotation = .rotateRight) (value : Byte) (carry : Bool) :
    value.toNat + 256 * (operation.entering carry).toNat =
      2 * (operation.apply value carry).1.toNat + (operation.apply value carry).2.toNat := by
  rw [apply_eq_rotation, rightward]
  exact toNat_rotateRight value _

end

/-! ## The ring of nine bits -/

abbrev Carried := Byte × Bool

def turn (operation : Shift) (state : Carried) : Carried := operation.apply state.1 state.2

def turnAll (operations : List Shift) (state : Carried) : Carried :=
  operations.foldl (fun state operation => operation.turn state) state

/-- The nine bits with the carry above the byte. -/
def ring (state : Carried) : BitVec 9 := BitVec.cons state.2 state.1

/-- A bit of the ring, whose places follow one another without an end. -/
def ringBit (state : Carried) (place : Nat) : Bool := (ring state).getLsbD (place % 9)

theorem toNat_ring (state : Carried) : (ring state).toNat = 256 * state.2.toNat + state.1.toNat := by
  rw [ring, BitVec.toNat_cons', Nat.shiftLeft_eq]
  omega

theorem ringBit_congr (state : Carried) {place other : Nat} (same : place % 9 = other % 9) :
    ringBit state place = ringBit state other := by
  rw [ringBit, ringBit, same]

theorem eq_of_ringBit_eq {first second : Carried}
    (agree : ∀ place, ringBit first place = ringBit second place) : first = second := by
  have rings : ring first = ring second := by
    refine BitVec.eq_of_getLsbD_eq fun place below => ?_
    have bit := agree place
    rwa [ringBit, ringBit, Nat.mod_eq_of_lt below] at bit
  have carries : first.2 = second.2 := by
    have tops := congrArg BitVec.msb rings
    rwa [ring, ring, BitVec.msb_cons, BitVec.msb_cons] at tops
  have bytes : first.1 = second.1 := by
    have low := congrArg (BitVec.setWidth 8) rings
    rwa [ring, ring, BitVec.setWidth_cons, BitVec.setWidth_cons] at low
  exact Prod.ext bytes carries

/-- If nine bits read with the carry above the byte are other nine read with the carry below it,
the first ring is the second one turned by a place. -/
theorem ringBit_succ {start finish : Carried} (concat : ring finish = start.1.concat start.2)
    (place : Nat) : ringBit finish (place + 1) = ringBit start place := by
  rw [ringBit, ringBit, concat, ring, BitVec.getLsbD_concat, BitVec.getLsbD_cons]
  by_cases top : place % 9 = 8
  · rw [if_pos (by omega), if_pos top]
  · rw [if_neg (by omega), if_neg top]
    exact congrArg start.1.getLsbD (by omega)

theorem ringBit_rotateLeft (state : Carried) (place : Nat) :
    ringBit (rotateLeft.turn state) (place + 1) = ringBit state place := by
  refine ringBit_succ (BitVec.eq_of_toNat_eq ?_) place
  have law := toNat_rotateLeft state.1 state.2
  rw [toNat_ring, BitVec.toNat_concat, turn]
  omega

theorem ringBit_rotateRight (state : Carried) (place : Nat) :
    ringBit (rotateRight.turn state) place = ringBit state (place + 1) := by
  refine (ringBit_succ (BitVec.eq_of_toNat_eq ?_) place).symm
  have law := toNat_rotateRight state.1 state.2
  rw [toNat_ring, BitVec.toNat_concat, turn]
  omega

/-- The rotations bring a byte and its carry back: they are as many to the left as to the right, but
for whole turns of the ring. -/
structure Restoring (operations : List Shift) : Prop where
  rotations : ∀ operation ∈ operations, operation.rotation = operation
  turns : operations.count .rotateLeft % 9 = operations.count .rotateRight % 9

theorem ringBit_turnAll {operations : List Shift}
    (rotations : ∀ operation ∈ operations, operation.rotation = operation) (state : Carried)
    (place : Nat) :
    ringBit (turnAll operations state) (place + operations.count .rotateLeft) =
      ringBit state (place + operations.count .rotateRight) := by
  induction operations generalizing state place with
  | nil => rfl
  | cons operation rest inductionHypothesis =>
      obtain ⟨first, others⟩ := List.forall_mem_cons.mp rotations
      have later := inductionHypothesis others (operation.turn state)
      cases operation with
      | left | right => cases first
      | rotateLeft =>
          have next := later (place + 1)
          rw [Nat.add_right_comm, Nat.add_right_comm place 1, ringBit_rotateLeft] at next
          rwa [List.count_cons_self, List.count_cons_of_ne (by decide)]
      | rotateRight =>
          have next := later place
          rw [ringBit_rotateRight] at next
          rwa [List.count_cons_self, List.count_cons_of_ne (by decide)]

theorem turnAll_eq_self {operations : List Shift} (restoring : Restoring operations)
    (state : Carried) : turnAll operations state = state := by
  obtain ⟨rotations, turns⟩ := restoring
  refine eq_of_ringBit_eq fun place => ?_
  have turned := ringBit_turnAll rotations state (place + 8 * operations.count .rotateLeft)
  have leftward : (place + 8 * operations.count .rotateLeft + operations.count .rotateLeft) % 9 =
      place % 9 := by omega
  have rightward : (place + 8 * operations.count .rotateLeft + operations.count .rotateRight) % 9 =
      place % 9 := by omega
  rwa [ringBit_congr _ leftward, ringBit_congr state rightward] at turned

theorem restoring_of_mem : ∀ operations ∈ [[.rotateLeft, .rotateRight], [.rotateRight, .rotateLeft],
    List.replicate 9 .rotateLeft, List.replicate 9 .rotateRight], Restoring operations := by
  simp only [List.forall_mem_cons]
  exact ⟨⟨by decide, rfl⟩, ⟨by decide, rfl⟩, ⟨by decide, rfl⟩, ⟨by decide, rfl⟩,
    List.forall_mem_nil _⟩

end Shift

end Nmos6502
