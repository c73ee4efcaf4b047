/-!
# Bytes, words and their written forms

The processor moves eight-bit bytes and sixteen-bit words; all arithmetic on
them wraps.  A word is a page (its high byte) and an offset in that page (its
low byte), and the main statements say that splitting a word and joining two
bytes are inverse, in both orders.
-/

set_option autoImplicit false

namespace Nmos6502

abbrev Byte := BitVec 8

abbrev Word := BitVec 16

namespace Word

def ofBytes (high low : Byte) : Word := high ++ low

def low (word : Word) : Byte := word.setWidth 8

def high (word : Word) : Byte := (word >>> 8).setWidth 8

theorem toNat_ofBytes (high low : Byte) :
    (ofBytes high low).toNat = 256 * high.toNat + low.toNat := by
  have bound : low.toNat < 2 ^ 8 := low.isLt
  rw [ofBytes, BitVec.toNat_append, ← Nat.shiftLeft_add_eq_or_of_lt bound, Nat.shiftLeft_eq]
  omega

theorem toNat_low (word : Word) : word.low.toNat = word.toNat % 256 := by
  simp [low]

theorem toNat_high (word : Word) : word.high.toNat = word.toNat / 256 := by
  have bound := word.isLt
  simp only [high, BitVec.toNat_setWidth, BitVec.toNat_ushiftRight, Nat.shiftRight_eq_div_pow]
  omega

@[simp] theorem low_ofBytes (high low : Byte) : (ofBytes high low).low = low := by
  have bound := low.isLt
  apply BitVec.eq_of_toNat_eq
  rw [toNat_low, toNat_ofBytes]
  omega

@[simp] theorem high_ofBytes (high low : Byte) : (ofBytes high low).high = high := by
  have bound := low.isLt
  apply BitVec.eq_of_toNat_eq
  rw [toNat_high, toNat_ofBytes]
  omega

@[simp] theorem ofBytes_high_low (word : Word) : ofBytes word.high word.low = word := by
  apply BitVec.eq_of_toNat_eq
  rw [toNat_ofBytes, toNat_high, toNat_low]
  omega

theorem ofBytes_inj {high low high' low' : Byte} :
    ofBytes high low = ofBytes high' low' ↔ high = high' ∧ low = low' := by
  constructor
  · intro same
    exact ⟨by simpa using congrArg Word.high same, by simpa using congrArg Word.low same⟩
  · rintro ⟨rfl, rfl⟩
    rfl

def zeroPage (offset : Byte) : Word := ofBytes 0 offset

/-- The written form of an address: a dollar sign and four upper-case
hexadecimal digits. -/
def dollarHex (word : Word) : String := "$" ++ word.toHex.toUpper

end Word

/-- The written form of an opcode byte: two lower-case hexadecimal digits after
the mark for base sixteen. -/
def Byte.hexText (byte : Byte) : String := "0x" ++ byte.toHex

end Nmos6502
