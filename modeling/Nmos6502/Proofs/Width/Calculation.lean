import Mathlib.Algebra.Group.Int.Defs
import Nmos6502.Bus.Program

/-!
# Calculations in fixed width

The sums and differences of the processor are computed in machine integers, each of which holds
only the numbers of its type.  `Arithmetic` says what becomes of a result that the type cannot
hold: it stops the work, it loses its high bits, or, where integers have no bounds, it is kept.

A `Calculation` is a bus program that shows this arithmetic.  Each sum and each difference is a
step of its own, given as an exact number with the type that has to hold it, and the work goes on
with what the arithmetic makes of it.  If every number of a calculation fits its type, then all
three arithmetics carry it out alike, and none of them stops (`Calculation.run_of_exact`).
-/

set_option autoImplicit false

namespace Nmos6502

/-! ## Integer types -/

/-- A type of machine integers, in two's complement if it is signed. -/
structure IntegerType where
  width : Nat
  signed : Bool
  deriving DecidableEq, Repr

namespace IntegerType

/-- The number of the type whose low bits are those of the given one. -/
def wrap (type : IntegerType) (exact : Int) : Int :=
  if type.signed then (BitVec.ofInt type.width exact).toInt
  else (BitVec.ofInt type.width exact).toNat

/-- The type holds the number: computed at the width of the type, it is the same. -/
def Fits (type : IntegerType) (exact : Int) : Prop := type.wrap exact = exact

instance (type : IntegerType) (exact : Int) : Decidable (type.Fits exact) :=
  inferInstanceAs (Decidable (_ = _))

def unsigned (width : Nat) : IntegerType := { width, signed := false }

def signed16 : IntegerType := { width := 16, signed := true }

theorem fits_unsigned {width : Nat} {exact : Int} :
    (unsigned width).Fits exact ↔ 0 ≤ exact ∧ exact < 2 ^ width := by
  have positive : (0 : Int) < 2 ^ width := Int.pow_pos (by decide)
  have wrapped : (unsigned width).wrap exact = exact % 2 ^ width := by
    have modulus : ((2 ^ width : Nat) : Int) = 2 ^ width := Int.natCast_pow 2 width
    change (((BitVec.ofInt width exact).toNat : Nat) : Int) = _
    rw [BitVec.toNat_ofInt, modulus,
      Int.toNat_of_nonneg (Int.emod_nonneg _ (Int.ne_of_gt positive))]
  rw [Fits, wrapped]
  constructor
  · intro same
    rw [← same]
    exact ⟨Int.emod_nonneg _ (Int.ne_of_gt positive), Int.emod_lt_of_pos _ positive⟩
  · rintro ⟨atLeast, below⟩
    exact Int.emod_eq_of_lt atLeast below

theorem fits_signed16 {exact : Int} :
    signed16.Fits exact ↔ -2 ^ 15 ≤ exact ∧ exact < 2 ^ 15 := by
  change (BitVec.ofInt 16 exact).toInt = exact ↔ _
  constructor
  · intro same
    rw [← same]
    exact ⟨BitVec.le_toInt _, BitVec.toInt_lt⟩
  · rintro ⟨atLeast, below⟩
    exact BitVec.toInt_ofInt_eq_self (by decide) atLeast below

end IntegerType

/-- What becomes of a result that its type cannot hold. -/
inductive Arithmetic where
  /-- It stops the work. -/
  | checked
  /-- It loses its high bits. -/
  | wrapping
  /-- It is kept: integers have no bounds. -/
  | unbounded
  deriving DecidableEq, Repr

def Arithmetic.settle : Arithmetic → IntegerType → Int → Option Int
  | checked, type, exact => if type.Fits exact then some exact else none
  | wrapping, type, exact => some (type.wrap exact)
  | unbounded, _, exact => some exact

theorem Arithmetic.settle_of_fits (arithmetic : Arithmetic) {type : IntegerType} {exact : Int}
    (fits : type.Fits exact) : arithmetic.settle type exact = some exact := by
  cases arithmetic with
  | checked => exact if_pos fits
  | wrapping => exact congrArg some fits
  | unbounded => rfl

/-! ## Calculations -/

inductive Calculation (α : Type) where
  | done (result : α)
  | read (address : Word) (next : Byte → Calculation α)
  | write (address : Word) (value : Byte) (next : Calculation α)
  | compute (type : IntegerType) (exact : Int) (next : Int → Calculation α)

namespace Calculation

variable {α β World : Type}

def bind : Calculation α → (α → Calculation β) → Calculation β
  | done result, rest => rest result
  | read address next, rest => read address fun value => (next value).bind rest
  | write address value next, rest => write address value (next.bind rest)
  | compute type exact next, rest => compute type exact fun number => (next number).bind rest

instance : Monad Calculation where
  pure := done
  bind := bind

def sum (type : IntegerType) (left right : Int) : Calculation Int :=
  compute type (left + right) done

def difference (type : IntegerType) (left right : Int) : Calculation Int :=
  compute type (left - right) done

def ofProgram : Program α → Calculation α
  | .done result => done result
  | .read address next => read address fun value => ofProgram (next value)
  | .write address value next => write address value (ofProgram next)

/-- Carries a calculation out; nothing comes of it if the arithmetic stops it. -/
def run (arithmetic : Arithmetic) : Calculation α → Bus World → Option (α × Bus World)
  | done result, bus => some (result, bus)
  | read address next, bus =>
      let (value, bus) := bus.read address
      (next value).run arithmetic bus
  | write address value next, bus => next.run arithmetic (bus.write address value)
  | compute type exact next, bus => do
      let number ← arithmetic.settle type exact
      (next number).run arithmetic bus

def exactly : Calculation α → Program α
  | done result => .done result
  | read address next => .read address fun value => (next value).exactly
  | write address value next => .write address value next.exactly
  | compute _ exact next => (next exact).exactly

/-- Every number that is computed on this bus fits its type. -/
def Exact : Calculation α → Bus World → Prop
  | done _, _ => True
  | read address next, bus => (next (bus.read address).1).Exact (bus.read address).2
  | write address value next, bus => next.Exact (bus.write address value)
  | compute type exact next, bus => type.Fits exact ∧ (next exact).Exact bus

theorem exactly_bind (calculation : Calculation α) (rest : α → Calculation β) :
    (calculation.bind rest).exactly =
      calculation.exactly.bind fun result => (rest result).exactly := by
  induction calculation with
  | done result => rfl
  | read address next inductionHypothesis =>
      exact congrArg (Program.read address) (funext inductionHypothesis)
  | write address value next inductionHypothesis =>
      exact congrArg (Program.write address value) inductionHypothesis
  | compute type exact next inductionHypothesis => exact inductionHypothesis exact

theorem exact_bind {calculation : Calculation α} {rest : α → Calculation β} {bus : Bus World} :
    (calculation.bind rest).Exact bus ↔
      calculation.Exact bus ∧
        (rest (calculation.exactly.run bus).1).Exact (calculation.exactly.run bus).2 := by
  induction calculation generalizing bus with
  | done result => exact (and_iff_right trivial).symm
  | read address next inductionHypothesis => exact inductionHypothesis _
  | write address value next inductionHypothesis => exact inductionHypothesis
  | compute type exact next inductionHypothesis =>
      exact (and_congr_right fun _ => inductionHypothesis exact).trans and_assoc.symm

/-- An exact calculation is carried out by every arithmetic, and as over unbounded integers. -/
theorem run_of_exact (arithmetic : Arithmetic) {calculation : Calculation α} {bus : Bus World}
    (exact : calculation.Exact bus) :
    calculation.run arithmetic bus = some (calculation.exactly.run bus) := by
  induction calculation generalizing bus with
  | done result => rfl
  | read address next inductionHypothesis => exact inductionHypothesis _ exact
  | write address value next inductionHypothesis => exact inductionHypothesis exact
  | compute type number next inductionHypothesis =>
      rw [run, arithmetic.settle_of_fits exact.1]
      exact inductionHypothesis number exact.2

theorem run_checked_eq_none_iff {calculation : Calculation α} {bus : Bus World} :
    calculation.run .checked bus = none ↔ ¬ calculation.Exact bus := by
  induction calculation generalizing bus with
  | done result => exact iff_of_false (Option.some_ne_none _) (not_not_intro trivial)
  | read address next inductionHypothesis => exact inductionHypothesis _
  | write address value next inductionHypothesis => exact inductionHypothesis
  | compute type number next inductionHypothesis =>
      by_cases fits : type.Fits number
      · rw [run, Arithmetic.settle_of_fits _ fits, Exact, and_iff_right fits]
        exact inductionHypothesis number
      · rw [run, Arithmetic.settle, if_neg fits]
        exact iff_of_true rfl (mt And.left fits)

/-! ## Calculations that are exact on every bus -/

/-- The calculation does what the program does, and all its numbers fit, whatever the bus gives. -/
structure Computes (calculation : Calculation α) (program : Program α) : Prop where
  exactly : calculation.exactly = program
  exact : ∀ {World : Type} (bus : Bus World), calculation.Exact bus

namespace Computes

theorem done (result : α) : (Calculation.done result).Computes (.done result) :=
  ⟨rfl, fun _ => trivial⟩

theorem ofProgram (program : Program α) : (Calculation.ofProgram program).Computes program := by
  induction program with
  | done result => exact .done result
  | read address next inductionHypothesis =>
      have same := funext fun value => (inductionHypothesis value).exactly
      exact ⟨congrArg (Program.read address) same,
        fun bus => (inductionHypothesis (bus.read address).1).exact _⟩
  | write address value next inductionHypothesis =>
      exact ⟨congrArg (Program.write address value) inductionHypothesis.exactly,
        fun bus => inductionHypothesis.exact _⟩

theorem compute {type : IntegerType} {number : Int} {next : Int → Calculation α}
    {program : Program α} (fits : type.Fits number) (rest : (next number).Computes program) :
    (Calculation.compute type number next).Computes program :=
  ⟨rest.exactly, fun bus => ⟨fits, rest.exact bus⟩⟩

theorem bind {calculation : Calculation α} {program : Program α} {rest : α → Calculation β}
    {after : α → Program β} (first : calculation.Computes program)
    (second : ∀ result, (rest result).Computes (after result)) :
    (calculation.bind rest).Computes (program.bind after) := by
  refine ⟨?_, fun bus => exact_bind.mpr ⟨first.exact bus, (second _).exact _⟩⟩
  rw [exactly_bind, first.exactly, funext fun result => (second result).exactly]

theorem number {calculation : Calculation α} {result : α} {rest : α → Calculation β}
    {program : Program β} (first : calculation.Computes (.done result))
    (second : (rest result).Computes program) : (calculation.bind rest).Computes program := by
  refine ⟨?_, fun bus => exact_bind.mpr ⟨first.exact bus, ?_⟩⟩
  · rw [exactly_bind, first.exactly]
    exact second.exactly
  · rw [first.exactly]
    exact second.exact bus

theorem sum {type : IntegerType} {left right total : Int} (fits : type.Fits total)
    (same : left + right = total) : (Calculation.sum type left right).Computes (.done total) :=
  same ▸ .compute (same ▸ fits) (.done _)

theorem difference {type : IntegerType} {left right total : Int} (fits : type.Fits total)
    (same : left - right = total) :
    (Calculation.difference type left right).Computes (.done total) :=
  same ▸ .compute (same ▸ fits) (.done _)

end Computes

/-- The calculation does what the program does, and its numbers fit wherever the result has the
property, and nowhere else. -/
structure ComputesWithin (property : α → Prop) (calculation : Calculation α)
    (program : Program α) : Prop where
  exactly : calculation.exactly = program
  exact_iff : ∀ {World : Type} (bus : Bus World),
    calculation.Exact bus ↔ property (program.run bus).1

namespace ComputesWithin

variable {property : β → Prop}

theorem bind {calculation : Calculation α} {program : Program α} {rest : α → Calculation β}
    {after : α → Program β} (first : calculation.Computes program)
    (second : ∀ result, (rest result).ComputesWithin property (after result)) :
    (calculation.bind rest).ComputesWithin property (program.bind after) := by
  constructor
  case exactly => rw [exactly_bind, first.exactly, funext fun result => (second result).exactly]
  case exact_iff =>
    intro World bus
    rw [exact_bind, and_iff_right (first.exact bus), first.exactly, Program.run_bind]
    exact (second _).exact_iff _

variable {calculation : Calculation β} {program : Program β}

theorem run (computes : calculation.ComputesWithin property program) (arithmetic : Arithmetic)
    {bus : Bus World} (holds : property (program.run bus).1) :
    calculation.run arithmetic bus = some (program.run bus) := by
  rw [run_of_exact arithmetic ((computes.exact_iff bus).mpr holds), computes.exactly]

theorem run_checked_eq_none_iff (computes : calculation.ComputesWithin property program)
    {bus : Bus World} :
    calculation.run .checked bus = none ↔ ¬ property (program.run bus).1 :=
  Calculation.run_checked_eq_none_iff.trans (not_congr (computes.exact_iff bus))

end ComputesWithin

end Calculation

end Nmos6502
