import Nmos6502.Bus.Basic

/-!
# Bus programs

The work of the processor between two instructions is a program over the bus: it
reads a byte and goes on with what it read, or writes a byte and goes on, or is
done.  Nothing else can happen, so a program says exactly which accesses are made
and in which order.

One program has two readings.  `run` carries it out; `accesses` lists what it
asked of the bus, with the bytes it was given.  Both split over sequencing
(`run_bind`, `accesses_bind`), and a property that holds of every possible result
(`Always`) holds of the result of any run (`Always.run`).
-/

set_option autoImplicit false

namespace Nmos6502

inductive Program (α : Type) where
  | done (result : α)
  | read (address : Word) (next : Byte → Program α)
  | write (address : Word) (value : Byte) (next : Program α)

inductive Access where
  | read (address : Word) (value : Byte)
  | write (address : Word) (value : Byte)
  deriving DecidableEq, Repr

namespace Program

variable {α β γ World : Type}

def bind : Program α → (α → Program β) → Program β
  | done result, rest => rest result
  | read address next, rest => read address fun value => (next value).bind rest
  | write address value next, rest => write address value (next.bind rest)

instance : Monad Program where
  pure := done
  bind := bind

def readByte (address : Word) : Program Byte := read address done

def writeByte (address : Word) (value : Byte) : Program Unit := write address value (done ())

/-- Reads a word whose low byte and high byte lie at unrelated addresses, the low
byte first. -/
def readSplit (lowAddress highAddress : Word) : Program Word := do
  let low ← readByte lowAddress
  let high ← readByte highAddress
  return Word.ofBytes high low

def readWord (address : Word) : Program Word := readSplit address (address + 1)

/-! ## Carrying a program out -/

def run : Program α → Bus World → α × Bus World
  | done result, bus => (result, bus)
  | read address next, bus =>
      let (value, bus) := bus.read address
      (next value).run bus
  | write address value next, bus => next.run (bus.write address value)

def accesses : Program α → Bus World → List Access
  | done _, _ => []
  | read address next, bus =>
      let (value, bus) := bus.read address
      .read address value :: (next value).accesses bus
  | write address value next, bus =>
      .write address value :: next.accesses (bus.write address value)

@[simp] theorem pure_eq (result : α) : (pure result : Program α) = done result := rfl

@[simp] theorem bind_eq (program : Program α) (rest : α → Program β) :
    program >>= rest = program.bind rest := rfl

@[simp] theorem done_bind (result : α) (rest : α → Program β) :
    (done result).bind rest = rest result := rfl

@[simp] theorem bind_done (program : Program α) : program.bind done = program := by
  induction program with
  | done result => rfl
  | read address next inductionHypothesis =>
      exact congrArg (read address) (funext inductionHypothesis)
  | write address value next inductionHypothesis =>
      exact congrArg (write address value) inductionHypothesis

theorem bind_assoc (program : Program α) (first : α → Program β) (second : β → Program γ) :
    (program.bind first).bind second = program.bind fun result => (first result).bind second := by
  induction program with
  | done result => rfl
  | read address next inductionHypothesis =>
      exact congrArg (read address) (funext inductionHypothesis)
  | write address value next inductionHypothesis =>
      exact congrArg (write address value) inductionHypothesis

@[simp] theorem run_done (result : α) (bus : Bus World) : (done result).run bus = (result, bus) :=
  rfl

instance : LawfulMonad Program :=
  LawfulMonad.mk' Program bind_done (fun _ _ => rfl) bind_assoc

theorem run_bind (program : Program α) (rest : α → Program β) (bus : Bus World) :
    (program.bind rest).run bus = (rest (program.run bus).1).run (program.run bus).2 := by
  induction program generalizing bus with
  | done result => rfl
  | read address next inductionHypothesis => exact inductionHypothesis _ _
  | write address value next inductionHypothesis => exact inductionHypothesis _

@[simp] theorem accesses_done (result : α) (bus : Bus World) : (done result).accesses bus = [] :=
  rfl

theorem accesses_bind (program : Program α) (rest : α → Program β) (bus : Bus World) :
    (program.bind rest).accesses bus =
      program.accesses bus ++ (rest (program.run bus).1).accesses (program.run bus).2 := by
  induction program generalizing bus with
  | done result => rfl
  | read address next inductionHypothesis =>
      exact congrArg (List.cons _) (inductionHypothesis _ _)
  | write address value next inductionHypothesis =>
      exact congrArg (List.cons _) (inductionHypothesis _)

@[simp] theorem run_readByte (address : Word) (bus : Bus World) :
    (readByte address).run bus = bus.read address := rfl

@[simp] theorem run_writeByte (address : Word) (value : Byte) (bus : Bus World) :
    (writeByte address value).run bus = ((), bus.write address value) := rfl

/-! ## Properties of every result -/

/-- Whatever bytes the bus gives, the result has the property. -/
def Always (property : α → Prop) : Program α → Prop
  | done result => property result
  | read _ next => ∀ value, (next value).Always property
  | write _ _ next => next.Always property

theorem Always.run {property : α → Prop} {program : Program α} (always : program.Always property)
    (bus : Bus World) : property (program.run bus).1 := by
  induction program generalizing bus with
  | done result => exact always
  | read address next inductionHypothesis => exact inductionHypothesis _ (always _) _
  | write address value next inductionHypothesis => exact inductionHypothesis always _

theorem Always.bind {middle : α → Prop} {property : β → Prop} {program : Program α}
    {rest : α → Program β} (first : program.Always middle)
    (second : ∀ result, middle result → (rest result).Always property) :
    (program.bind rest).Always property := by
  induction program with
  | done result => exact second result first
  | read address next inductionHypothesis =>
      exact fun value => inductionHypothesis value (first value)
  | write address value next inductionHypothesis => exact inductionHypothesis first

theorem Always.of_rest {property : β → Prop} {rest : α → Program β}
    (second : ∀ result, (rest result).Always property) (program : Program α) :
    (program.bind rest).Always property := by
  induction program with
  | done result => exact second result
  | read address next inductionHypothesis => exact inductionHypothesis
  | write address value next inductionHypothesis => exact inductionHypothesis

end Program

end Nmos6502
