import Nmos6502.Addressing
import Nmos6502.Proofs.Bus.Transfers

/-!
# Locating an operand

Behind the opcode lie the operand bytes, and an indirect mode has a pointer besides,
whose two bytes are read low byte first.  Where these are, and which address they
give, depends on the registers and on the bytes already read and on nothing else
(`Addressing.locates`).  Addresses count from the opcode.
-/

set_option autoImplicit false

namespace Nmos6502

namespace Access

def reads (addresses : List Word) (values : List Byte) : List Access :=
  List.zipWith Access.read addresses values

theorem write_notMem_reads (addresses : List Word) (values : List Byte) (address : Word)
    (value : Byte) : .write address value ∉ reads addresses values := by
  induction addresses generalizing values with
  | nil => exact List.not_mem_nil
  | cons first rest inductionHypothesis =>
      cases values with
      | nil => exact List.not_mem_nil
      | cons byte bytes =>
          rw [reads, List.zipWith_cons_cons, List.mem_cons]
          rintro (same | later)
          · cases same
          · exact inductionHypothesis bytes later

end Access

namespace Mode

/-- The operand bytes that locate the operand.  An immediate operand is located by its
place alone. -/
def codeAddresses (mode : Mode) (registers : Registers) : List Word :=
  if mode = .immediate then []
  else (List.range mode.operandLength).map fun offset =>
    registers.pc + 1 + BitVec.ofNat 16 offset

theorem codeAddresses_of_one {mode : Mode} (different : mode ≠ .immediate)
    (length : mode.operandLength = 1) (registers : Registers) :
    mode.codeAddresses registers = [registers.pc + 1] := by
  rw [codeAddresses, if_neg different, length]
  exact congrArg (fun address => [address]) (BitVec.add_zero _)

theorem codeAddresses_of_two {mode : Mode} (length : mode.operandLength = 2)
    (registers : Registers) :
    mode.codeAddresses registers = [registers.pc + 1, registers.pc + 1 + 1] := by
  have different : mode ≠ .immediate := by
    rintro rfl
    exact absurd length (by decide)
  rw [codeAddresses, if_neg different, length]
  exact congrArg (fun address => [address, _]) (BitVec.add_zero _)

def pointerAddresses (mode : Mode) (registers : Registers) (code : List Byte) : List Word :=
  match mode, code with
  | .indirect, [low, high] => [Word.ofBytes high low, Word.ofBytes high (low + 1)]
  | .indirectX, [base] =>
      [Word.zeroPage (base + registers.x), Word.zeroPage (base + registers.x + 1)]
  | .indirectY, [base] => [Word.zeroPage base, Word.zeroPage (base + 1)]
  | _, _ => []

def effectiveAddress (mode : Mode) (registers : Registers) (code pointer : List Byte) :
    Option Word :=
  match mode, code, pointer with
  | .immediate, _, _ => some (registers.pc + 1)
  | .zeroPage, [base], _ => some (Word.zeroPage base)
  | .zeroPageX, [base], _ => some (Word.zeroPage (base + registers.x))
  | .zeroPageY, [base], _ => some (Word.zeroPage (base + registers.y))
  | .absolute, [low, high], _ => some (Word.ofBytes high low)
  | .absoluteX, [low, high], _ => some (Word.ofBytes high low + registers.x.setWidth 16)
  | .absoluteY, [low, high], _ => some (Word.ofBytes high low + registers.y.setWidth 16)
  | .indirect, _, [low, high] => some (Word.ofBytes high low)
  | .indirectX, _, [low, high] => some (Word.ofBytes high low)
  | .indirectY, _, [low, high] => some (Word.ofBytes high low + registers.y.setWidth 16)
  | .relative, [displacement], _ => some (registers.pc + 2 + displacement.signExtend 16)
  | _, _, _ => none

/-- The transfers locate an operand in this mode, at this address. -/
def Locates (mode : Mode) (registers : Registers) (transfers : List Access)
    (address : Option Word) : Prop :=
  ∃ code pointer,
    code.length = (mode.codeAddresses registers).length ∧
    pointer.length = (mode.pointerAddresses registers code).length ∧
    transfers =
      Access.reads (mode.codeAddresses registers) code ++
        Access.reads (mode.pointerAddresses registers code) pointer ∧
    address = mode.effectiveAddress registers code pointer

end Mode

theorem Word.add_one_add_one (address : Word) : address + 1 + 1 = address + 2 := by bv_omega

namespace Addressing

variable {World : Type}

theorem low_ofBytes_add_one (high low : Byte) : (Word.ofBytes high low + 1).low = low + 1 := by
  apply BitVec.eq_of_toNat_eq
  rw [Word.toNat_low, BitVec.toNat_add, Word.toNat_ofBytes, BitVec.toNat_add]
  change (256 * high.toNat + low.toNat + 1) % 2 ^ 16 % 256 = (low.toNat + 1) % 2 ^ 8
  omega

theorem resolve_indirect (registers : Registers) :
    resolve .indirect registers =
      (Program.readByte registers.pc).bind fun low =>
        (Program.readByte (registers.pc + 1)).bind fun high =>
          (Program.readSplit (Word.ofBytes high low) (Word.ofBytes high (low + 1))).bind
            fun address => .done (.cell address) := by
  have opened : resolve .indirect registers =
      (Program.readByte registers.pc).bind fun low =>
        (Program.readByte (registers.pc + 1)).bind fun high =>
          (indirect (Word.ofBytes high low)).bind fun address => .done (.cell address) := rfl
  rw [opened]
  simp only [indirect, Word.high_ofBytes, low_ofBytes_add_one]

theorem locates (mode : Mode) (registers : Registers) (bus : Bus World) :
    mode.Locates registers ((resolve mode (registers.advance 1)).accesses bus)
      ((resolve mode (registers.advance 1)).run bus).1.address := by
  cases mode with
  | implied | accumulator | immediate => exact ⟨[], [], rfl, rfl, rfl, rfl⟩
  | zeroPage | zeroPageX | zeroPageY =>
      refine ⟨[(bus.read (registers.pc + 1)).1], [], rfl, rfl, ?_, rfl⟩
      rw [Mode.codeAddresses_of_one (by decide) rfl]
      rfl
  | relative =>
      refine ⟨[(bus.read (registers.pc + 1)).1], [], rfl, rfl, ?_, ?_⟩
      · rw [Mode.codeAddresses_of_one (by decide) rfl]
        rfl
      · simp only [Mode.effectiveAddress, ← Word.add_one_add_one]
        rfl
  | absolute | absoluteX | absoluteY =>
      refine ⟨[(bus.read (registers.pc + 1)).1,
        ((bus.read (registers.pc + 1)).2.read (registers.pc + 1 + 1)).1], [], rfl, rfl, ?_, rfl⟩
      rw [Mode.codeAddresses_of_two rfl]
      rfl
  | indirect =>
      rw [resolve_indirect]
      refine ⟨[(bus.read (registers.pc + 1)).1,
        ((bus.read (registers.pc + 1)).2.read (registers.pc + 1 + 1)).1], [_, _], rfl, rfl, ?_, rfl⟩
      rw [Mode.codeAddresses_of_two rfl]
      rfl
  | indirectX | indirectY =>
      refine ⟨[(bus.read (registers.pc + 1)).1], [_, _], rfl, rfl, ?_, rfl⟩
      rw [Mode.codeAddresses_of_one (by decide) rfl]
      rfl

theorem write_notMem_accesses (mode : Mode) (registers : Registers) (bus : Bus World)
    (address : Word) (value : Byte) :
    .write address value ∉ (resolve mode (registers.advance 1)).accesses bus := by
  obtain ⟨code, pointer, -, -, transfers, -⟩ := locates mode registers bus
  rw [transfers, List.mem_append]
  rintro (first | second)
  · exact Access.write_notMem_reads _ _ _ _ first
  · exact Access.write_notMem_reads _ _ _ _ second

theorem address_resolve_eq_none_iff {mode : Mode} {registers : Registers} {bus : Bus World} :
    ((resolve mode registers).run bus).1.address = none ↔
      mode = .implied ∨ mode = .accumulator := by
  cases mode with
  | implied | accumulator => exact iff_of_true rfl (by decide)
  | _ => exact iff_of_false (Option.some_ne_none _) (by decide)

end Addressing

end Nmos6502
