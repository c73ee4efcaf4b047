import Mathlib.Data.Nat.Digits.Defs
import Mathlib.Tactic.LinearCombination
import Nmos6502.Alu

/-!
# Addition and subtraction of long numbers

A number longer than a byte is added or subtracted byte by byte, from the least significant
one on, and the carry passes from each byte to the next.  The two operations count it in
opposite ways: in an addition a set carry is one more, in a subtraction a clear one is one
less.  With `Operation.unit` for what the carry counts, both obey one law: the total of two
digits is the digit of the result and the base times the unit of the new carry.

The law passes from the digits to the number (`Operation.total_cons`), and of a number it says
both what the result is (`Operation.total_emod`) and when the carry is set
(`Operation.carries_total`).
-/

set_option autoImplicit false

namespace Nmos6502

namespace Alu

structure Terms where
  accumulator : Byte
  operand : Byte
  deriving DecidableEq, Repr

inductive Operation where
  | addition
  | subtraction
  deriving DecidableEq, Repr

/-- The number whose digits the bytes stand for, least significant first. -/
def number (base : Nat) (digit : Byte → Nat) (bytes : List Byte) : Nat :=
  Nat.ofDigits base (bytes.map digit)

theorem number_cons (base : Nat) (digit : Byte → Nat) (low : Byte) (rest : List Byte) :
    number base digit (low :: rest) = digit low + base * number base digit rest :=
  Nat.ofDigits_cons

theorem number_lt {base : Nat} {digit : Byte → Nat} {bytes : List Byte} (large : 1 < base)
    (below : ∀ byte ∈ bytes, digit byte < base) :
    number base digit bytes < base ^ bytes.length := by
  have digits := Nat.ofDigits_lt_base_pow_length large (List.forall_mem_map.mpr below)
  rwa [List.length_map] at digits

namespace Operation

def apply (operation : Operation) (decimal : Bool) (terms : Terms) (status : Status) : Result :=
  match operation with
  | addition => add decimal terms.accumulator terms.operand status
  | subtraction => subtract decimal terms.accumulator terms.operand status

def total (operation : Operation) (left right : Int) (carry : Bool) : Int :=
  match operation with
  | addition => left + right + carry.toNat
  | subtraction => left - right - (!carry).toNat

def unit (operation : Operation) (carry : Bool) : Int := operation.total 0 0 carry

/-- An addition carries when the total reaches the modulus, a subtraction when the total is
not negative. -/
def Carries (operation : Operation) (modulus total : Int) : Prop :=
  match operation with
  | addition => modulus ≤ total
  | subtraction => 0 ≤ total

instance (operation : Operation) (modulus total : Int) :
    Decidable (operation.Carries modulus total) :=
  match operation with
  | addition => inferInstanceAs (Decidable (modulus ≤ total))
  | subtraction => inferInstanceAs (Decidable (0 ≤ total))

theorem total_addition (left right : Int) (carry : Bool) :
    addition.total left right carry = left + right + carry.toNat :=
  rfl

theorem total_subtraction (left right : Int) (carry : Bool) :
    subtraction.total left right carry = addition.total left (-1 - right) carry := by
  cases carry <;> simp [total] <;> omega

theorem unit_addition (carry : Bool) : addition.unit carry = carry.toNat := by
  simp [unit, total]

theorem unit_subtraction (carry : Bool) : subtraction.unit carry = carry.toNat - 1 := by
  cases carry <;> rfl

variable {operation : Operation} {base modulus left right result : Int} {carry next : Bool}

theorem total_cons (digits : operation.total left right carry = result + base * operation.unit next)
    (leftRest rightRest : Int) :
    operation.total (left + base * leftRest) (right + base * rightRest) carry =
      result + base * operation.total leftRest rightRest next := by
  cases operation with
  | addition =>
      simp only [unit, total] at digits ⊢
      linear_combination digits
  | subtraction =>
      simp only [unit, total] at digits ⊢
      linear_combination digits

theorem total_emod
    (digits : operation.total left right carry = result + modulus * operation.unit next)
    (nonneg : 0 ≤ result) (below : result < modulus) :
    operation.total left right carry % modulus = result := by
  rw [digits, Int.add_mul_emod_self_left, Int.emod_eq_of_lt nonneg below]

theorem carries_total
    (digits : operation.total left right carry = result + modulus * operation.unit next)
    (nonneg : 0 ≤ result) (below : result < modulus) :
    operation.Carries modulus (operation.total left right carry) ↔ next = true := by
  rw [digits]
  cases operation <;> cases next <;> simp [Carries, unit, total] <;> omega

end Operation

end Alu

end Nmos6502
