import Nmos6502.Proofs.Addressing.Location
import Nmos6502.Proofs.Bus.Veil

/-!
# Effective addresses

`Addressing.Resolves` is the law of the thirteen modes in whole numbers: which bytes a mode reads,
what it counts its result from, and the result.  Sums wrap in page zero, in the page of a pointer or
at the end of memory, each mode in its own way, and every wrap is a remainder here.

A mode that counts from a base tells whether its result lies in another page than the base
(`LeavesPage`).  The carry out of the low byte says this of an index, also past the end of memory,
and the comparison of the high bytes says it of a branch.
-/

set_option autoImplicit false

namespace Nmos6502

namespace Word

theorem toNat_zeroPage (offset : Byte) : (zeroPage offset).toNat = offset.toNat := by
  rw [zeroPage, toNat_ofBytes]
  exact Nat.zero_add _

theorem toNat_zeroPage_add (offset index : Byte) :
    (zeroPage (offset + index)).toNat = (offset.toNat + index.toNat) % 256 := by
  rw [toNat_zeroPage, BitVec.toNat_add]

/-! ### Words of whole numbers -/

theorem ofBytes_eq (high low : Byte) :
    ofBytes high low = BitVec.ofNat 16 (256 * high.toNat + low.toNat) := by
  rw [← toNat_ofBytes, BitVec.ofNat_toNat, BitVec.setWidth_eq]

theorem ofBytes_succ_eq (high low : Byte) :
    ofBytes high (low + 1) = BitVec.ofNat 16 (256 * high.toNat + (low.toNat + 1) % 256) := by
  rw [ofBytes_eq, BitVec.toNat_add]
  rfl

theorem zeroPage_eq (offset : Byte) : zeroPage offset = BitVec.ofNat 16 offset.toNat := by
  rw [← toNat_zeroPage, BitVec.ofNat_toNat, BitVec.setWidth_eq]

theorem zeroPage_add_eq (offset index : Byte) :
    zeroPage (offset + index) = BitVec.ofNat 16 ((offset.toNat + index.toNat) % 256) := by
  rw [zeroPage_eq, BitVec.toNat_add]

theorem zeroPage_succ_eq (offset : Byte) :
    zeroPage (offset + 1) = BitVec.ofNat 16 ((offset.toNat + 1) % 256) :=
  zeroPage_add_eq offset 1

theorem zeroPage_add_succ_eq (offset index : Byte) :
    zeroPage (offset + index + 1) =
      BitVec.ofNat 16 ((offset.toNat + index.toNat + 1) % 256) := by
  rw [zeroPage_succ_eq, BitVec.toNat_add, Nat.mod_add_mod]

/-! ### Sums -/

theorem toNat_add_index (base : Word) (index : Byte) :
    (base + index.setWidth 16).toNat = (base.toNat + index.toNat) % 65536 := by
  have bound := index.isLt
  rw [BitVec.toNat_add, BitVec.toNat_setWidth, Nat.mod_eq_of_lt (a := index.toNat) (by omega)]

theorem toNat_succ (address : Word) : (address + 1).toNat = (address.toNat + 1) % 65536 := by
  rw [BitVec.toNat_add]
  rfl

theorem toNat_succ_add_displacement (address : Word) (displacement : Byte) :
    (address + 1 + displacement.signExtend 16).toNat =
      ((address.toNat + 1 + displacement.toInt) % 65536).toNat := by
  have signed : address + 1 + displacement.signExtend 16 =
      BitVec.ofInt 16 ((address + 1).toNat + displacement.toInt) := by
    rw [BitVec.ofInt_add, BitVec.ofInt_natCast, BitVec.ofNat_toNat, BitVec.setWidth_eq,
      BitVec.signExtend]
  rw [signed, BitVec.toNat_ofInt, toNat_succ]
  omega

end Word

namespace Addressing

variable {World : Type}

/-- A mode reads these bytes, counts from this base if it has one, and yields this address if it has
one. -/
inductive Resolves (registers : Registers) :
    Mode → List Access → (base address : Option Nat) → Prop where
  | implied : Resolves registers .implied [] none none
  | accumulator : Resolves registers .accumulator [] none none
  | immediate : Resolves registers .immediate [] none (some registers.pc.toNat)
  | zeroPage (first : Byte) :
      Resolves registers .zeroPage [.read registers.pc first] none (some first.toNat)
  | zeroPageX (first : Byte) :
      Resolves registers .zeroPageX [.read registers.pc first] none
        (some ((first.toNat + registers.x.toNat) % 256))
  | zeroPageY (first : Byte) :
      Resolves registers .zeroPageY [.read registers.pc first] none
        (some ((first.toNat + registers.y.toNat) % 256))
  | absolute (first second : Byte) :
      Resolves registers .absolute [.read registers.pc first, .read (registers.pc + 1) second] none
        (some (256 * second.toNat + first.toNat))
  | absoluteX (first second : Byte) :
      Resolves registers .absoluteX [.read registers.pc first, .read (registers.pc + 1) second]
        (some (256 * second.toNat + first.toNat))
        (some ((256 * second.toNat + first.toNat + registers.x.toNat) % 65536))
  | absoluteY (first second : Byte) :
      Resolves registers .absoluteY [.read registers.pc first, .read (registers.pc + 1) second]
        (some (256 * second.toNat + first.toNat))
        (some ((256 * second.toNat + first.toNat + registers.y.toNat) % 65536))
  | indirect (first second low high : Byte) :
      Resolves registers .indirect
        [.read registers.pc first, .read (registers.pc + 1) second,
          .read (BitVec.ofNat 16 (256 * second.toNat + first.toNat)) low,
          .read (BitVec.ofNat 16 (256 * second.toNat + (first.toNat + 1) % 256)) high]
        none (some (256 * high.toNat + low.toNat))
  | indirectX (first low high : Byte) :
      Resolves registers .indirectX
        [.read registers.pc first,
          .read (BitVec.ofNat 16 ((first.toNat + registers.x.toNat) % 256)) low,
          .read (BitVec.ofNat 16 ((first.toNat + registers.x.toNat + 1) % 256)) high]
        none (some (256 * high.toNat + low.toNat))
  | indirectY (first low high : Byte) :
      Resolves registers .indirectY
        [.read registers.pc first, .read (BitVec.ofNat 16 first.toNat) low,
          .read (BitVec.ofNat 16 ((first.toNat + 1) % 256)) high]
        (some (256 * high.toNat + low.toNat))
        (some ((256 * high.toNat + low.toNat + registers.y.toNat) % 65536))
  | relative (first : Byte) :
      Resolves registers .relative [.read registers.pc first]
        (some ((registers.pc.toNat + 1) % 65536))
        (some ((registers.pc.toNat + 1 + first.toInt) % 65536).toNat)

def LeavesPage (base address : Option Nat) : Prop :=
  ∃ start target, base = some start ∧ address = some target ∧ target / 256 ≠ start / 256

theorem not_leavesPage_none (address : Option Nat) : ¬ LeavesPage none address := by
  rintro ⟨start, target, missing, -⟩
  cases missing

theorem leavesPage_some_iff {start target : Nat} :
    LeavesPage (some start) (some target) ↔ target / 256 ≠ start / 256 := by
  constructor
  · rintro ⟨_, _, one, other, differs⟩
    rwa [Option.some.inj one, Option.some.inj other]
  · exact fun differs => ⟨start, target, rfl, rfl, differs⟩

instance : (base address : Option Nat) → Decidable (LeavesPage base address)
  | some _, some _ => decidable_of_iff' _ leavesPage_some_iff
  | none, address => .isFalse (not_leavesPage_none address)
  | some _, none => .isFalse fun ⟨_, _, _, missing, _⟩ => nomatch missing

theorem crosses_iff_leavesPage (base : Word) (index : Byte) :
    Operand.crosses base index = true ↔
      LeavesPage (some base.toNat) (some (base + index.setWidth 16).toNat) := by
  have baseBound := base.isLt
  have indexBound := index.isLt
  rw [Operand.crosses_iff, leavesPage_some_iff, Word.toNat_add_index]
  omega

theorem branchCrosses_iff_leavesPage (next : Word) (displacement : Byte) :
    (Operand.branchTarget next displacement).pageCrossed = true ↔
      LeavesPage (some next.toNat) (some (next + displacement.signExtend 16).toNat) := by
  have compared : (Operand.branchTarget next displacement).pageCrossed = true ↔
      next.high ≠ (next + displacement.signExtend 16).high := by
    rw [Operand.branchTarget, bne_iff_ne]
  rw [compared, leavesPage_some_iff, ← Word.toNat_high, ← Word.toNat_high, Ne, Ne, BitVec.toNat_inj,
    eq_comm]

theorem exists_resolves (mode : Mode) (registers : Registers) (bus : Bus World) :
    ∃ base,
      Resolves registers mode ((resolve mode registers).accesses bus) base
          (((resolve mode registers).run bus).1.address.map BitVec.toNat) ∧
        (((resolve mode registers).run bus).1.pageCrossed = true ↔
          LeavesPage base (((resolve mode registers).run bus).1.address.map BitVec.toNat)) := by
  have uncrossed (address : Option Nat) : false = true ↔ LeavesPage none address :=
    iff_of_false Bool.false_ne_true (not_leavesPage_none address)
  cases mode with
  | implied => exact ⟨none, .implied, uncrossed _⟩
  | accumulator => exact ⟨none, .accumulator, uncrossed _⟩
  | immediate => exact ⟨none, .immediate, uncrossed _⟩
  | zeroPage =>
      have law : Resolves registers .zeroPage _ _ _ := .zeroPage (bus.read registers.pc).1
      rw [← Word.toNat_zeroPage] at law
      exact ⟨none, law, uncrossed _⟩
  | zeroPageX =>
      have law : Resolves registers .zeroPageX _ _ _ := .zeroPageX (bus.read registers.pc).1
      rw [← Word.toNat_zeroPage_add] at law
      exact ⟨none, law, uncrossed _⟩
  | zeroPageY =>
      have law : Resolves registers .zeroPageY _ _ _ := .zeroPageY (bus.read registers.pc).1
      rw [← Word.toNat_zeroPage_add] at law
      exact ⟨none, law, uncrossed _⟩
  | absolute =>
      have law : Resolves registers .absolute _ _ _ := .absolute (bus.read registers.pc).1
        ((bus.read registers.pc).2.read (registers.pc + 1)).1
      rw [← Word.toNat_ofBytes] at law
      exact ⟨none, law, uncrossed _⟩
  | absoluteX =>
      have law : Resolves registers .absoluteX _ _ _ := .absoluteX (bus.read registers.pc).1
        ((bus.read registers.pc).2.read (registers.pc + 1)).1
      rw [← Word.toNat_ofBytes, ← Word.toNat_add_index] at law
      exact ⟨_, law, crosses_iff_leavesPage _ _⟩
  | absoluteY =>
      have law : Resolves registers .absoluteY _ _ _ := .absoluteY (bus.read registers.pc).1
        ((bus.read registers.pc).2.read (registers.pc + 1)).1
      rw [← Word.toNat_ofBytes, ← Word.toNat_add_index] at law
      exact ⟨_, law, crosses_iff_leavesPage _ _⟩
  | indirect =>
      rw [resolve_indirect]
      refine ⟨none, ?_, uncrossed _⟩
      change Resolves registers .indirect
        [.read registers.pc _, .read (registers.pc + 1) _, .read (Word.ofBytes _ _) _,
          .read (Word.ofBytes _ (_ + 1)) _] none (some (Word.ofBytes _ _).toNat)
      rw [Word.ofBytes_succ_eq, Word.ofBytes_eq, Word.toNat_ofBytes]
      exact .indirect _ _ _ _
  | indirectX =>
      refine ⟨none, ?_, uncrossed _⟩
      change Resolves registers .indirectX
        [.read registers.pc _, .read (Word.zeroPage (_ + registers.x)) _,
          .read (Word.zeroPage (_ + registers.x + 1)) _] none (some (Word.ofBytes _ _).toNat)
      rw [Word.zeroPage_add_succ_eq, Word.zeroPage_add_eq, Word.toNat_ofBytes]
      exact .indirectX _ _ _
  | indirectY =>
      refine ⟨some (Word.ofBytes _ _).toNat, ?_, crosses_iff_leavesPage _ _⟩
      change Resolves registers .indirectY
        [.read registers.pc _, .read (Word.zeroPage _) _, .read (Word.zeroPage (_ + 1)) _]
        (some (Word.ofBytes _ _).toNat) (some (Word.ofBytes _ _ + _).toNat)
      rw [Word.zeroPage_succ_eq, Word.zeroPage_eq, Word.toNat_add_index, Word.toNat_ofBytes]
      exact .indirectY _ _ _
  | relative =>
      have law : Resolves registers .relative _ _ _ := .relative (bus.read registers.pc).1
      rw [← Word.toNat_succ, ← Word.toNat_succ_add_displacement] at law
      exact ⟨_, law, branchCrosses_iff_leavesPage _ _⟩

/-! ## Page zero -/

section

variable {mode : Mode} {registers : Registers} {transfers : List Access} {base address : Option Nat}

theorem Resolves.isSome_base_iff (resolves : Resolves registers mode transfers base address) :
    base.isSome = true ↔ mode ∈ [.absoluteX, .absoluteY, .indirectY, .relative] := by
  cases resolves with
  | absoluteX _ _ | absoluteY _ _ | indirectY _ _ _ | relative _ => exact iff_of_true rfl (by decide)
  | _ => exact iff_of_false Bool.false_ne_true (by decide)

theorem Resolves.address_lt (resolves : Resolves registers mode transfers base address)
    (short : mode ∈ [.zeroPage, .zeroPageX, .zeroPageY]) : ∃ cell < 256, address = some cell := by
  cases resolves with
  | zeroPage first => exact ⟨_, first.isLt, rfl⟩
  | zeroPageX first | zeroPageY first => exact ⟨_, Nat.mod_lt _ (by decide), rfl⟩
  | _ => simp at short

theorem toNat_ofNat_lt {cell : Nat} (below : cell < 256) : (BitVec.ofNat 16 cell).toNat < 256 := by
  rwa [BitVec.toNat_ofNat, Nat.mod_eq_of_lt (by omega)]

theorem Resolves.pointer_lt (resolves : Resolves registers mode transfers base address)
    (indirect : mode ∈ [.indirectX, .indirectY]) :
    ∀ transfer ∈ transfers.tail, transfer.address.toNat < 256 := by
  cases resolves with
  | indirectX first low high =>
      simp only [List.tail_cons, List.forall_mem_cons, Access.address]
      exact ⟨toNat_ofNat_lt (Nat.mod_lt _ (by decide)), toNat_ofNat_lt (Nat.mod_lt _ (by decide)),
        List.forall_mem_nil _⟩
  | indirectY first low high =>
      simp only [List.tail_cons, List.forall_mem_cons, Access.address]
      exact ⟨toNat_ofNat_lt first.isLt, toNat_ofNat_lt (Nat.mod_lt _ (by decide)),
        List.forall_mem_nil _⟩
  | _ => simp at indirect

end

/-- Resolving a mode makes the accesses of the law and no others, and yields the address of the law;
a crossing is signalled exactly if the address lies in another page than the base from which the
mode counts.  The short modes do not leave page zero, and neither do the pointers of the two indexed
indirect modes. -/
theorem resolve_effective (mode : Mode) (registers : Registers) (bus : Bus World) :
    let operand := ((resolve mode registers).run bus).1
    let transfers := (resolve mode registers).accesses bus
    let address := operand.address.map BitVec.toNat
    (∃ base, Resolves registers mode transfers base address ∧
        (base.isSome = true ↔ mode ∈ [.absoluteX, .absoluteY, .indirectY, .relative]) ∧
        (operand.pageCrossed = true ↔ LeavesPage base address)) ∧
      bus.Carries transfers ((resolve mode registers).run bus).2 ∧
      (mode ∈ [.zeroPage, .zeroPageX, .zeroPageY] → ∃ cell < 256, address = some cell) ∧
      (mode ∈ [.indirectX, .indirectY] →
        ∀ transfer ∈ transfers.tail, transfer.address.toNat < 256) := by
  obtain ⟨base, resolves, crossed⟩ := exists_resolves mode registers bus
  exact ⟨⟨base, resolves, resolves.isSome_base_iff, crossed⟩,
    (resolve mode registers).carries_accesses bus, resolves.address_lt, resolves.pointer_lt⟩

/-- The operand byte is the last of page zero, and the index wraps. -/
theorem resolve_effective_wraps :
    let bus : Bus Unit := { ram := Ram.zero.set 0x0200 0xFF, world := () }
    let operand := ((resolve .zeroPageX { x := 0x02, pc := 0x0200 }).run bus).1
    operand.address = some 0x0001 ∧
      ∃ cell < 256, operand.address.map BitVec.toNat = some cell := by
  intro bus operand
  obtain ⟨-, -, short, -⟩ := resolve_effective .zeroPageX { x := 0x02, pc := 0x0200 } bus
  exact ⟨by decide +kernel, short (by decide)⟩

end Addressing

end Nmos6502
