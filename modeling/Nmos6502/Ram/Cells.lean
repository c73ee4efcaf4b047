import Nmos6502.Word

/-!
# Trees of cells

A perfect binary tree with a byte in each leaf.  A tree of some depth has the
addresses below its span; the lower branch holds the lower half of them, and the
upper branch the rest, so the bits of an address, from the highest to the lowest,
choose the way down.  Two versions of a tree share all the branches in which they
agree, so keeping an old version costs nothing and the difference of two versions
is found without a scan.

A write changes the cell it names and no other (`get_set`), two trees with the same
cells are equal (`ext`), and `mem_changes` says which cells the difference of two
trees lists.
-/

set_option autoImplicit false

namespace Nmos6502

/-- One byte for each of the addresses below the span of the depth. -/
inductive Cells : Nat → Type where
  | leaf (value : Byte) : Cells 0
  | node {depth : Nat} (lower upper : Cells depth) : Cells (depth + 1)

namespace Cells

def span (depth : Nat) : Nat := 1 <<< depth

theorem span_zero : span 0 = 1 := rfl

theorem span_succ (depth : Nat) : span (depth + 1) = span depth + span depth := by
  rw [span, Nat.shiftLeft_succ, Nat.two_mul, span]

def fill (value : Byte) : (depth : Nat) → Cells depth
  | 0 => leaf value
  | depth + 1 =>
      let half := fill value depth
      node half half

def get : {depth : Nat} → Cells depth → Nat → Byte
  | 0, leaf value, _ => value
  | depth + 1, node lower upper, address =>
      if address.testBit depth then upper.get address else lower.get address

def set : {depth : Nat} → Cells depth → Nat → Byte → Cells depth
  | 0, leaf _, _, value => leaf value
  | depth + 1, node lower upper, address, value =>
      if address.testBit depth then node lower (upper.set address value)
      else node (lower.set address value) upper

@[simp] theorem get_fill (value : Byte) (depth address : Nat) :
    (fill value depth).get address = value := by
  induction depth with
  | zero => rfl
  | succ depth inductionHypothesis =>
      simp only [fill, get]
      split <;> exact inductionHypothesis

/-! ## The two halves of a tree -/

theorem testBit_lower {depth address : Nat} (low : address < span depth) :
    address.testBit depth = false := by
  rw [span, Nat.one_shiftLeft] at low
  exact Nat.testBit_lt_two_pow low

theorem testBit_upper {depth address : Nat} (low : address < span depth) :
    (span depth + address).testBit depth = true := by
  rw [span, Nat.one_shiftLeft, Nat.testBit_two_pow_add_eq, testBit_lower low, Bool.not_false]

/-- Two addresses name the same cells of a tree when their bits below its depth
agree. -/
def SameBits (depth first second : Nat) : Prop :=
  ∀ position < depth, first.testBit position = second.testBit position

theorem sameBits_span_add (depth address : Nat) :
    SameBits depth (span depth + address) address := by
  intro position below
  rw [span, Nat.one_shiftLeft]
  exact Nat.testBit_two_pow_add_gt below address

theorem SameBits.below {depth first second : Nat} (same : SameBits (depth + 1) first second) :
    SameBits depth first second :=
  fun position below => same position (Nat.lt_succ_of_lt below)

theorem SameBits.get_eq {depth first second : Nat} (same : SameBits depth first second)
    (cells : Cells depth) : cells.get first = cells.get second := by
  induction cells with
  | leaf => rfl
  | @node depth lower upper lowerHypothesis upperHypothesis =>
      rw [get, get, same depth (Nat.lt_succ_self depth), lowerHypothesis same.below,
        upperHypothesis same.below]

theorem SameBits.set_eq {depth first second : Nat} (same : SameBits depth first second)
    (cells : Cells depth) (value : Byte) : cells.set first value = cells.set second value := by
  induction cells with
  | leaf => rfl
  | @node depth lower upper lowerHypothesis upperHypothesis =>
      rw [set, set, same depth (Nat.lt_succ_self depth), lowerHypothesis same.below,
        upperHypothesis same.below]

theorem get_node_lower {depth address : Nat} (lower upper : Cells depth)
    (low : address < span depth) : (node lower upper).get address = lower.get address := by
  rw [get, testBit_lower low, if_neg Bool.false_ne_true]

theorem get_node_upper {depth address : Nat} (lower upper : Cells depth)
    (low : address < span depth) :
    (node lower upper).get (span depth + address) = upper.get address := by
  rw [get, if_pos (testBit_upper low)]
  exact (sameBits_span_add depth address).get_eq upper

theorem set_node_lower {depth address : Nat} (lower upper : Cells depth) (value : Byte)
    (low : address < span depth) :
    (node lower upper).set address value = node (lower.set address value) upper := by
  rw [set, testBit_lower low, if_neg Bool.false_ne_true]

theorem set_node_upper {depth address : Nat} (lower upper : Cells depth) (value : Byte)
    (low : address < span depth) :
    (node lower upper).set (span depth + address) value =
      node lower (upper.set address value) := by
  rw [set, if_pos (testBit_upper low)]
  exact congrArg (node lower) ((sameBits_span_add depth address).set_eq upper value)

theorem lower_or_upper {depth address : Nat} (bound : address < span (depth + 1)) :
    address < span depth ∨ ∃ offset < span depth, address = span depth + offset := by
  rw [span_succ] at bound
  rcases Nat.lt_or_ge address (span depth) with low | high
  · exact Or.inl low
  · exact Or.inr ⟨address - span depth, by omega, by omega⟩

/-! ## Laws -/

theorem get_set {depth : Nat} (cells : Cells depth) {address other : Nat} (value : Byte)
    (addressBound : address < span depth) (otherBound : other < span depth) :
    (cells.set address value).get other = if other = address then value else cells.get other := by
  induction cells generalizing address other with
  | leaf old =>
      rw [span_zero] at addressBound otherBound
      rw [if_pos (by omega)]
      rfl
  | @node depth lower upper lowerHypothesis upperHypothesis =>
      rcases lower_or_upper addressBound with low | ⟨offset, high, rfl⟩
      · rw [set_node_lower _ _ _ low]
        rcases lower_or_upper otherBound with otherLow | ⟨otherOffset, otherHigh, rfl⟩
        · rw [get_node_lower _ _ otherLow, get_node_lower _ _ otherLow]
          exact lowerHypothesis low otherLow
        · rw [get_node_upper _ _ otherHigh, get_node_upper _ _ otherHigh, if_neg (by omega)]
      · rw [set_node_upper _ _ _ high]
        rcases lower_or_upper otherBound with otherLow | ⟨otherOffset, otherHigh, rfl⟩
        · rw [get_node_lower _ _ otherLow, get_node_lower _ _ otherLow, if_neg (by omega)]
        · rw [get_node_upper _ _ otherHigh, get_node_upper _ _ otherHigh,
            upperHypothesis high otherHigh]
          simp only [Nat.add_left_cancel_iff]

theorem ext {depth : Nat} {first second : Cells depth}
    (agree : ∀ address < span depth, first.get address = second.get address) :
    first = second := by
  induction first with
  | leaf value =>
      cases second with
      | leaf other => exact congrArg leaf (agree 0 Nat.zero_lt_one)
  | @node depth lower upper lowerHypothesis upperHypothesis =>
      cases second with
      | node otherLower otherUpper =>
          have lowerAgree : lower = otherLower := by
            refine lowerHypothesis fun address low => ?_
            have both := agree address (by rw [span_succ]; omega)
            rwa [get_node_lower _ _ low, get_node_lower _ _ low] at both
          have upperAgree : upper = otherUpper := by
            refine upperHypothesis fun address low => ?_
            have both := agree (span depth + address) (by rw [span_succ]; omega)
            rwa [get_node_upper _ _ low, get_node_upper _ _ low] at both
          rw [lowerAgree, upperAgree]

instance decEq : {depth : Nat} → DecidableEq (Cells depth)
  | 0, leaf value, leaf other =>
      if same : value = other then isTrue (by rw [same]) else isFalse (by simpa using same)
  | depth + 1, node lower upper, node otherLower otherUpper =>
      match withPtrEqDecEq lower otherLower (fun _ => decEq lower otherLower) with
      | isFalse different => isFalse fun same => different (by injection same)
      | isTrue lowerAgree =>
          match withPtrEqDecEq upper otherUpper (fun _ => decEq upper otherUpper) with
          | isFalse different => isFalse fun same => different (by injection same)
          | isTrue upperAgree => isTrue (by rw [lowerAgree, upperAgree])

/-- The cells of the new tree that differ from the old one, put in ascending order
in front of `rest`; `base` is the address of the first cell. -/
def changes : {depth : Nat} → (old new : Cells depth) → (base : Nat) →
    (rest : List (Nat × Byte)) → List (Nat × Byte)
  | 0, leaf old, leaf new, base, rest => if old = new then rest else (base, new) :: rest
  | depth + 1, old@(node oldLower oldUpper), new@(node newLower newUpper), base, rest =>
      if old = new then rest
      else
        changes oldLower newLower base (changes oldUpper newUpper (base + span depth) rest)

theorem mem_changes {depth : Nat} (old new : Cells depth) (base : Nat)
    (rest : List (Nat × Byte)) (entry : Nat × Byte) :
    entry ∈ changes old new base rest ↔
      entry ∈ rest ∨ ∃ address < span depth,
        old.get address ≠ new.get address ∧ entry = (base + address, new.get address) := by
  induction old generalizing base rest with
  | leaf value =>
      cases new with
      | leaf other =>
          by_cases same : value = other
          · simp [changes, get, same]
          · simp [changes, get, same, span_zero, or_comm]
  | @node depth lower upper lowerHypothesis upperHypothesis =>
      cases new with
      | node newLower newUpper =>
          by_cases same : node lower upper = node newLower newUpper
          · simp [changes, same]
          · rw [changes, if_neg same, lowerHypothesis, upperHypothesis]
            constructor
            · rintro ((listed | ⟨address, low, differs, rfl⟩) | ⟨address, low, differs, rfl⟩)
              · exact Or.inl listed
              · refine Or.inr ⟨span depth + address, by rw [span_succ]; omega, ?_⟩
                rw [get_node_upper _ _ low, get_node_upper _ _ low, Nat.add_assoc]
                exact ⟨differs, rfl⟩
              · refine Or.inr ⟨address, by rw [span_succ]; omega, ?_⟩
                rw [get_node_lower _ _ low, get_node_lower _ _ low]
                exact ⟨differs, rfl⟩
            · rintro (listed | ⟨address, bound, differs, rfl⟩)
              · exact Or.inl (Or.inl listed)
              · rcases lower_or_upper bound with low | ⟨offset, high, rfl⟩
                · rw [get_node_lower _ _ low, get_node_lower _ _ low] at differs
                  rw [get_node_lower _ _ low]
                  exact Or.inr ⟨address, low, differs, rfl⟩
                · rw [get_node_upper _ _ high, get_node_upper _ _ high] at differs
                  rw [get_node_upper _ _ high, ← Nat.add_assoc]
                  exact Or.inl (Or.inr ⟨offset, high, differs, rfl⟩)

end Cells

end Nmos6502
