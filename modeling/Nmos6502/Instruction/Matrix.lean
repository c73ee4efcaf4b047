import Nmos6502.Addressing
import Nmos6502.Instruction.Mnemonic

/-!
# The opcode matrix

The high digit of an opcode selects a row of the matrix and the low digit a cell
of that row.  Of the 256 cells 151 hold a documented instruction and the rest are
blank.  `decode` looks a byte up; its small laws, decided over the whole matrix,
bound the cycles of an instruction, say in which modes crossing a page can cost
another one, and give every branch, and nothing else, the relative mode.
-/

set_option autoImplicit false

namespace Nmos6502

structure Instruction where
  mnemonic : Mnemonic
  mode : Mode
  /-- The cycles before any that depend on the operand or on the outcome. -/
  cycles : Nat
  /-- Whether a page crossing costs another cycle; a branch pays it only when it
  is taken. -/
  pagePenalty : Bool
  deriving DecidableEq, Repr

namespace Instruction

def length (instruction : Instruction) : Nat := 1 + instruction.mode.operandLength

end Instruction

namespace Opcode

def fixed (mnemonic : Mnemonic) (mode : Mode) (cycles : Nat) : Option Instruction :=
  some { mnemonic, mode, cycles, pagePenalty := false }

def paged (mnemonic : Mnemonic) (mode : Mode) (cycles : Nat) : Option Instruction :=
  some { mnemonic, mode, cycles, pagePenalty := true }

def blank : Option Instruction := none

def matrix : List (List (Option Instruction)) :=
  [
    -- 0x00 to 0x0F
    [fixed .brk .implied 7, fixed .ora .indirectX 6, blank, blank, blank, fixed .ora .zeroPage 3,
      fixed .asl .zeroPage 5, blank, fixed .php .implied 3, fixed .ora .immediate 2,
      fixed .asl .accumulator 2, blank, blank, fixed .ora .absolute 4, fixed .asl .absolute 6,
      blank],
    -- 0x10 to 0x1F
    [paged .bpl .relative 2, paged .ora .indirectY 5, blank, blank, blank,
      fixed .ora .zeroPageX 4, fixed .asl .zeroPageX 6, blank, fixed .clc .implied 2,
      paged .ora .absoluteY 4, blank, blank, blank, paged .ora .absoluteX 4,
      fixed .asl .absoluteX 7, blank],
    -- 0x20 to 0x2F
    [fixed .jsr .absolute 6, fixed .and .indirectX 6, blank, blank, fixed .bit .zeroPage 3,
      fixed .and .zeroPage 3, fixed .rol .zeroPage 5, blank, fixed .plp .implied 4,
      fixed .and .immediate 2, fixed .rol .accumulator 2, blank, fixed .bit .absolute 4,
      fixed .and .absolute 4, fixed .rol .absolute 6, blank],
    -- 0x30 to 0x3F
    [paged .bmi .relative 2, paged .and .indirectY 5, blank, blank, blank,
      fixed .and .zeroPageX 4, fixed .rol .zeroPageX 6, blank, fixed .sec .implied 2,
      paged .and .absoluteY 4, blank, blank, blank, paged .and .absoluteX 4,
      fixed .rol .absoluteX 7, blank],
    -- 0x40 to 0x4F
    [fixed .rti .implied 6, fixed .eor .indirectX 6, blank, blank, blank, fixed .eor .zeroPage 3,
      fixed .lsr .zeroPage 5, blank, fixed .pha .implied 3, fixed .eor .immediate 2,
      fixed .lsr .accumulator 2, blank, fixed .jmp .absolute 3, fixed .eor .absolute 4,
      fixed .lsr .absolute 6, blank],
    -- 0x50 to 0x5F
    [paged .bvc .relative 2, paged .eor .indirectY 5, blank, blank, blank,
      fixed .eor .zeroPageX 4, fixed .lsr .zeroPageX 6, blank, fixed .cli .implied 2,
      paged .eor .absoluteY 4, blank, blank, blank, paged .eor .absoluteX 4,
      fixed .lsr .absoluteX 7, blank],
    -- 0x60 to 0x6F
    [fixed .rts .implied 6, fixed .adc .indirectX 6, blank, blank, blank, fixed .adc .zeroPage 3,
      fixed .ror .zeroPage 5, blank, fixed .pla .implied 4, fixed .adc .immediate 2,
      fixed .ror .accumulator 2, blank, fixed .jmp .indirect 5, fixed .adc .absolute 4,
      fixed .ror .absolute 6, blank],
    -- 0x70 to 0x7F
    [paged .bvs .relative 2, paged .adc .indirectY 5, blank, blank, blank,
      fixed .adc .zeroPageX 4, fixed .ror .zeroPageX 6, blank, fixed .sei .implied 2,
      paged .adc .absoluteY 4, blank, blank, blank, paged .adc .absoluteX 4,
      fixed .ror .absoluteX 7, blank],
    -- 0x80 to 0x8F
    [blank, fixed .sta .indirectX 6, blank, blank, fixed .sty .zeroPage 3, fixed .sta .zeroPage 3,
      fixed .stx .zeroPage 3, blank, fixed .dey .implied 2, blank, fixed .txa .implied 2, blank,
      fixed .sty .absolute 4, fixed .sta .absolute 4, fixed .stx .absolute 4, blank],
    -- 0x90 to 0x9F
    [paged .bcc .relative 2, fixed .sta .indirectY 6, blank, blank, fixed .sty .zeroPageX 4,
      fixed .sta .zeroPageX 4, fixed .stx .zeroPageY 4, blank, fixed .tya .implied 2,
      fixed .sta .absoluteY 5, fixed .txs .implied 2, blank, blank, fixed .sta .absoluteX 5,
      blank, blank],
    -- 0xA0 to 0xAF
    [fixed .ldy .immediate 2, fixed .lda .indirectX 6, fixed .ldx .immediate 2, blank,
      fixed .ldy .zeroPage 3, fixed .lda .zeroPage 3, fixed .ldx .zeroPage 3, blank,
      fixed .tay .implied 2, fixed .lda .immediate 2, fixed .tax .implied 2, blank,
      fixed .ldy .absolute 4, fixed .lda .absolute 4, fixed .ldx .absolute 4, blank],
    -- 0xB0 to 0xBF
    [paged .bcs .relative 2, paged .lda .indirectY 5, blank, blank, fixed .ldy .zeroPageX 4,
      fixed .lda .zeroPageX 4, fixed .ldx .zeroPageY 4, blank, fixed .clv .implied 2,
      paged .lda .absoluteY 4, fixed .tsx .implied 2, blank, paged .ldy .absoluteX 4,
      paged .lda .absoluteX 4, paged .ldx .absoluteY 4, blank],
    -- 0xC0 to 0xCF
    [fixed .cpy .immediate 2, fixed .cmp .indirectX 6, blank, blank, fixed .cpy .zeroPage 3,
      fixed .cmp .zeroPage 3, fixed .dec .zeroPage 5, blank, fixed .iny .implied 2,
      fixed .cmp .immediate 2, fixed .dex .implied 2, blank, fixed .cpy .absolute 4,
      fixed .cmp .absolute 4, fixed .dec .absolute 6, blank],
    -- 0xD0 to 0xDF
    [paged .bne .relative 2, paged .cmp .indirectY 5, blank, blank, blank,
      fixed .cmp .zeroPageX 4, fixed .dec .zeroPageX 6, blank, fixed .cld .implied 2,
      paged .cmp .absoluteY 4, blank, blank, blank, paged .cmp .absoluteX 4,
      fixed .dec .absoluteX 7, blank],
    -- 0xE0 to 0xEF
    [fixed .cpx .immediate 2, fixed .sbc .indirectX 6, blank, blank, fixed .cpx .zeroPage 3,
      fixed .sbc .zeroPage 3, fixed .inc .zeroPage 5, blank, fixed .inx .implied 2,
      fixed .sbc .immediate 2, fixed .nop .implied 2, blank, fixed .cpx .absolute 4,
      fixed .sbc .absolute 4, fixed .inc .absolute 6, blank],
    -- 0xF0 to 0xFF
    [paged .beq .relative 2, paged .sbc .indirectY 5, blank, blank, blank,
      fixed .sbc .zeroPageX 4, fixed .inc .zeroPageX 6, blank, fixed .sed .implied 2,
      paged .sbc .absoluteY 4, blank, blank, blank, paged .sbc .absoluteX 4,
      fixed .inc .absoluteX 7, blank]]

end Opcode

def decode (opcode : Byte) : Option Instruction := do
  let row ← Opcode.matrix[(opcode >>> 4).toNat]?
  let cell ← row[(opcode &&& 0x0F).toNat]?
  cell

/-- An instruction takes from two to seven cycles before it pays for a crossing or
a taken branch, one that can pay for a crossing at most five, and a branch two. -/
theorem decode_cycles_bounds : ∀ opcode : Byte, ∀ instruction ∈ decode opcode,
    2 ≤ instruction.cycles ∧ instruction.cycles ≤ 7 ∧
      (instruction.pagePenalty = true → instruction.cycles ≤ 5) ∧
      (instruction.mnemonic.isBranch = true → instruction.cycles = 2) := by
  decide +kernel

theorem mode_eq_relative_iff : ∀ opcode : Byte, ∀ instruction ∈ decode opcode,
    instruction.mode = .relative ↔ instruction.mnemonic.isBranch = true := by
  decide +kernel

end Nmos6502
