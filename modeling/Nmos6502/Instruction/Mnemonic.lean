import Nmos6502.Registers

/-!
# Mnemonics and actions

The documented instruction set has fifty-six mnemonics.  Most of them name the
same few actions with another register, flag or operation in it, so each mnemonic
is given its action, and everything that an instruction does is said of actions.
-/

set_option autoImplicit false

namespace Nmos6502

inductive Mnemonic where
  | adc | and | asl | bcc | bcs | beq | bit | bmi | bne | bpl | brk | bvc | bvs | clc | cld | cli
  | clv | cmp | cpx | cpy | dec | dex | dey | eor | inc | inx | iny | jmp | jsr | lda | ldx | ldy
  | lsr | nop | ora | pha | php | pla | plp | rol | ror | rti | rts | sbc | sec | sed | sei | sta
  | stx | sty | tax | tay | tsx | txa | txs | tya
  deriving DecidableEq, Repr

inductive Logic where
  | conjunction
  | disjunction
  | exclusive
  deriving DecidableEq, Repr

def Logic.apply : Logic → Byte → Byte → Byte
  | conjunction, accumulator, operand => accumulator &&& operand
  | disjunction, accumulator, operand => accumulator ||| operand
  | exclusive, accumulator, operand => accumulator ^^^ operand

inductive Shift where
  | left
  | right
  | rotateLeft
  | rotateRight
  deriving DecidableEq, Repr

/-- The moved byte and the bit that left it.  A rotation takes the carry in, a
shift takes zero. -/
def Shift.apply : Shift → Byte → (carry : Bool) → Byte × Bool
  | left, value, _ => (value <<< 1, value.getLsbD 7)
  | right, value, _ => (value >>> 1, value.getLsbD 0)
  | rotateLeft, value, carry => ((value <<< 1) ||| (BitVec.ofBool carry).setWidth 8, value.getLsbD 7)
  | rotateRight, value, carry =>
      ((value >>> 1) ||| ((BitVec.ofBool carry).setWidth 8 <<< 7), value.getLsbD 0)

inductive Count where
  | up
  | down
  deriving DecidableEq, Repr

def Count.apply : Count → Byte → Byte
  | up, value => value + 1
  | down, value => value - 1

inductive Action where
  | load (target : Register)
  | store (source : Register)
  | add
  | subtract
  | compare (register : Register)
  | combine (operation : Logic)
  | bitTest
  | shift (operation : Shift)
  | count (direction : Count)
  | countRegister (register : Register) (direction : Count)
  | transfer (source target : Register)
  /-- Moves the X register to the stack pointer and describes nothing. -/
  | setStackPointer
  | setFlag (flag : Flag) (value : Bool)
  | branch (flag : Flag) (value : Bool)
  | jump
  | call
  | returnFromCall
  | softwareBreak
  | returnFromInterrupt
  | pushAccumulator
  | pullAccumulator
  | pushStatus
  | pullStatus
  | nothing
  deriving DecidableEq, Repr

namespace Mnemonic

def name : Mnemonic → String
  | adc => "ADC" | and => "AND" | asl => "ASL" | bcc => "BCC" | bcs => "BCS"
  | beq => "BEQ" | bit => "BIT" | bmi => "BMI" | bne => "BNE" | bpl => "BPL"
  | brk => "BRK" | bvc => "BVC" | bvs => "BVS" | clc => "CLC" | cld => "CLD"
  | cli => "CLI" | clv => "CLV" | cmp => "CMP" | cpx => "CPX" | cpy => "CPY"
  | dec => "DEC" | dex => "DEX" | dey => "DEY" | eor => "EOR" | inc => "INC"
  | inx => "INX" | iny => "INY" | jmp => "JMP" | jsr => "JSR" | lda => "LDA"
  | ldx => "LDX" | ldy => "LDY" | lsr => "LSR" | nop => "NOP" | ora => "ORA"
  | pha => "PHA" | php => "PHP" | pla => "PLA" | plp => "PLP" | rol => "ROL"
  | ror => "ROR" | rti => "RTI" | rts => "RTS" | sbc => "SBC" | sec => "SEC"
  | sed => "SED" | sei => "SEI" | sta => "STA" | stx => "STX" | sty => "STY"
  | tax => "TAX" | tay => "TAY" | tsx => "TSX" | txa => "TXA" | txs => "TXS"
  | tya => "TYA"

def action : Mnemonic → Action
  | lda => .load .a
  | ldx => .load .x
  | ldy => .load .y
  | sta => .store .a
  | stx => .store .x
  | sty => .store .y
  | adc => .add
  | sbc => .subtract
  | cmp => .compare .a
  | cpx => .compare .x
  | cpy => .compare .y
  | and => .combine .conjunction
  | ora => .combine .disjunction
  | eor => .combine .exclusive
  | bit => .bitTest
  | asl => .shift .left
  | lsr => .shift .right
  | rol => .shift .rotateLeft
  | ror => .shift .rotateRight
  | inc => .count .up
  | dec => .count .down
  | inx => .countRegister .x .up
  | dex => .countRegister .x .down
  | iny => .countRegister .y .up
  | dey => .countRegister .y .down
  | tax => .transfer .a .x
  | tay => .transfer .a .y
  | txa => .transfer .x .a
  | tya => .transfer .y .a
  | tsx => .transfer .sp .x
  | txs => .setStackPointer
  | clc => .setFlag .carry false
  | sec => .setFlag .carry true
  | cli => .setFlag .irqDisable false
  | sei => .setFlag .irqDisable true
  | clv => .setFlag .overflow false
  | cld => .setFlag .decimal false
  | sed => .setFlag .decimal true
  | bpl => .branch .negative false
  | bmi => .branch .negative true
  | bvc => .branch .overflow false
  | bvs => .branch .overflow true
  | bcc => .branch .carry false
  | bcs => .branch .carry true
  | bne => .branch .zero false
  | beq => .branch .zero true
  | jmp => .jump
  | jsr => .call
  | rts => .returnFromCall
  | brk => .softwareBreak
  | rti => .returnFromInterrupt
  | pha => .pushAccumulator
  | pla => .pullAccumulator
  | php => .pushStatus
  | plp => .pullStatus
  | nop => .nothing

def isBranch (mnemonic : Mnemonic) : Bool :=
  match mnemonic.action with
  | .branch _ _ => true
  | _ => false

end Mnemonic

end Nmos6502
