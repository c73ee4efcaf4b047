import Nmos6502.Status

/-!
# The packed status byte

The status register is one byte, and what sets a flag does it through a mask.  `Status` keeps
the six live flags of that byte, and `Status.bits` packs them again.  Here the operations are
those on the byte itself, and each operation on the flags is the one on the packed byte
(`Status.packs`), so the two may be taken for one another.

On the byte the unused bit and the break bit could be changed.  They are not: no mask of an
operation touches them, and a byte from outside has them put right.  So every byte that the
operations build is live (`Built.live`), and a live byte can be had back from either of its
copies (`Live.ofByte_pushed`).
-/

set_option autoImplicit false

namespace Nmos6502

namespace Flag

theorem position_lt (flag : Flag) : flag.position < 8 := by cases flag <;> decide

theorem position_inj {flag other : Flag} : flag.position = other.position ↔ flag = other := by
  cases flag <;> cases other <;> decide

theorem exists_position {place : Nat} (inside : place < 8) :
    ∃ flag : Flag, flag.position = place := by
  match place, inside with
  | 0, _ => exact ⟨carry, rfl⟩
  | 1, _ => exact ⟨zero, rfl⟩
  | 2, _ => exact ⟨irqDisable, rfl⟩
  | 3, _ => exact ⟨decimal, rfl⟩
  | 4, _ => exact ⟨brk, rfl⟩
  | 5, _ => exact ⟨unused, rfl⟩
  | 6, _ => exact ⟨overflow, rfl⟩
  | 7, _ => exact ⟨negative, rfl⟩

theorem byte_ext {first second : Byte}
    (same : ∀ flag : Flag, first.getLsbD flag.position = second.getLsbD flag.position) :
    first = second := by
  apply BitVec.eq_of_getLsbD_eq
  intro place inside
  obtain ⟨flag, rfl⟩ := exists_position inside
  exact same flag

end Flag

namespace Packed

def mask (flag : Flag) : Byte := BitVec.twoPow 8 flag.position

def assign (byte : Byte) (flag : Flag) (value : Bool) : Byte :=
  if value then byte ||| mask flag else byte &&& ~~~ mask flag

def fresh : Byte := mask .unused

/-- The status byte that a byte from outside becomes. -/
def ofByte (byte : Byte) : Byte := assign (assign byte .unused true) .brk false

def pushed (byte : Byte) (brk : Bool) : Byte := assign byte .brk brk

def write (byte : Byte) (flag : Flag) (value : Bool) : Byte :=
  match flag with
  | .brk | .unused => byte
  | flag => assign byte flag value

def initial : Byte := write fresh .irqDisable true

def describing (byte value : Byte) : Byte :=
  write (write byte .zero (value == 0)) .negative value.msb

def afterSum (byte accumulator operand : Byte) (sum : Word) : Byte :=
  let result := sum.low
  let carried := write byte .carry (decide (0xFF < sum))
  describing
    (write carried .overflow ((accumulator ^^^ result) &&& (operand ^^^ result)).msb) result

def afterCompare (byte register operand : Byte) : Byte :=
  describing (write byte .carry (decide (operand ≤ register))) (register - operand)

def afterShift (byte result : Byte) (shiftedOut : Bool) : Byte :=
  describing (write byte .carry shiftedOut) result

def afterBitTest (byte accumulator operand : Byte) : Byte :=
  write
    (write (write byte .zero (accumulator &&& operand == 0)) .overflow (operand.getLsbD 6))
    .negative (operand.getLsbD 7)

/-- The unused bit is set and the break bit is clear. -/
structure Live (byte : Byte) : Prop where
  unused : byte.getLsbD 5 = true
  brk : byte.getLsbD 4 = false

/-- The bytes that the operations build, whatever they are given. -/
inductive Built : Byte → Prop where
  | fresh : Built fresh
  | ofByte (byte : Byte) : Built (ofByte byte)
  | write {byte : Byte} (built : Built byte) (flag : Flag) (value : Bool) :
      Built (write byte flag value)
  | describing {byte : Byte} (built : Built byte) (value : Byte) : Built (describing byte value)
  | afterSum {byte : Byte} (built : Built byte) (accumulator operand : Byte) (sum : Word) :
      Built (afterSum byte accumulator operand sum)
  | afterCompare {byte : Byte} (built : Built byte) (register operand : Byte) :
      Built (afterCompare byte register operand)
  | afterShift {byte : Byte} (built : Built byte) (result : Byte) (shiftedOut : Bool) :
      Built (afterShift byte result shiftedOut)
  | afterBitTest {byte : Byte} (built : Built byte) (accumulator operand : Byte) :
      Built (afterBitTest byte accumulator operand)

/-- Some writes to these flags lead from the one byte to the other. -/
inductive Writes (flags : List Flag) : Byte → Byte → Prop where
  | done (byte : Byte) : Writes flags byte byte
  | write {byte last : Byte} {flag : Flag} {value : Bool} (member : flag ∈ flags)
      (rest : Writes flags (write byte flag value) last) : Writes flags byte last

/-! ## Masks -/

theorem getLsbD_mask (flag other : Flag) :
    (mask flag).getLsbD other.position = decide (other = flag) := by
  rw [mask, BitVec.getLsbD_twoPow, decide_eq_true flag.position_lt, Bool.true_and]
  exact decide_eq_decide.mpr (Flag.position_inj.trans eq_comm)

theorem getLsbD_assign (byte : Byte) (flag other : Flag) (value : Bool) :
    (assign byte flag value).getLsbD other.position =
      if other = flag then value else byte.getLsbD other.position := by
  cases value with
  | true =>
      rw [assign, if_pos rfl, BitVec.getLsbD_or, getLsbD_mask]
      split <;> simp_all
  | false =>
      rw [assign, if_neg Bool.false_ne_true, BitVec.getLsbD_and, BitVec.getLsbD_not, getLsbD_mask,
        decide_eq_true other.position_lt, Bool.true_and]
      split <;> simp_all

theorem getLsbD_write (byte : Byte) (flag other : Flag) (value : Bool) :
    (write byte flag value).getLsbD other.position =
      if other = flag ∧ flag ≠ .brk ∧ flag ≠ .unused then value
      else byte.getLsbD other.position := by
  cases flag with
  | brk | unused => simp [write]
  | _ => simp [write, getLsbD_assign]

theorem getLsbD_ofByte (byte : Byte) (flag : Flag) :
    (ofByte byte).getLsbD flag.position =
      if flag = .brk then false else if flag = .unused then true
      else byte.getLsbD flag.position := by
  rw [ofByte, getLsbD_assign, getLsbD_assign]

/-! ## Live bytes -/

theorem live_fresh : Live fresh :=
  ⟨getLsbD_mask .unused .unused, getLsbD_mask .unused .brk⟩

theorem live_ofByte (byte : Byte) : Live (ofByte byte) :=
  ⟨getLsbD_ofByte byte .unused, getLsbD_ofByte byte .brk⟩

theorem Live.write {byte : Byte} (live : Live byte) (flag : Flag) (value : Bool) :
    Live (write byte flag value) := by
  have kept (other : Flag) (dead : other = .unused ∨ other = .brk) :
      (Packed.write byte flag value).getLsbD other.position = byte.getLsbD other.position := by
    rw [getLsbD_write, if_neg]
    rintro ⟨rfl, free⟩
    exact dead.elim free.2 free.1
  exact ⟨(kept .unused (Or.inl rfl)).trans live.unused, (kept .brk (Or.inr rfl)).trans live.brk⟩

theorem Live.describing {byte : Byte} (live : Live byte) (value : Byte) :
    Live (describing byte value) :=
  (live.write _ _).write _ _

/-- No operation spoils a byte, whatever it is given. -/
theorem Built.live {byte : Byte} (built : Built byte) : Live byte := by
  induction built with
  | fresh => exact live_fresh
  | ofByte byte => exact live_ofByte byte
  | write _ flag value live => exact live.write flag value
  | describing _ value live => exact live.describing value
  | afterSum _ _ _ _ live => exact ((live.write _ _).write _ _).describing _
  | afterCompare _ _ _ live => exact (live.write _ _).describing _
  | afterShift _ _ _ live => exact (live.write _ _).describing _
  | afterBitTest _ _ _ live => exact ((live.write _ _).write _ _).write _ _

theorem Writes.mono {flags more : List Flag} {first last : Byte} (writes : Writes flags first last)
    (fewer : ∀ flag ∈ flags, flag ∈ more) : Writes more first last := by
  induction writes with
  | done byte => exact .done byte
  | write member _ inductionHypothesis => exact .write (fewer _ member) inductionHypothesis

theorem Writes.built {flags : List Flag} {first last : Byte} (writes : Writes flags first last)
    (built : Built first) : Built last := by
  induction writes with
  | done _ => exact built
  | write _ _ inductionHypothesis => exact inductionHypothesis (built.write _ _)

theorem Writes.live {flags : List Flag} {first last : Byte} (writes : Writes flags first last)
    (live : Live first) : Live last := by
  induction writes with
  | done _ => exact live
  | write _ _ inductionHypothesis => exact inductionHypothesis (live.write _ _)

theorem Live.ofByte_pushed {byte : Byte} (live : Live byte) (brk : Bool) :
    ofByte (pushed byte brk) = byte := by
  apply Flag.byte_ext
  intro flag
  rw [getLsbD_ofByte, pushed, getLsbD_assign]
  cases flag with
  | unused => exact live.unused.symm
  | brk => exact live.brk.symm
  | _ => rfl

end Packed

/-! ## The flags as a packed byte -/

namespace Status

theorem get_set_self (status : Status) {flag : Flag} (value : Bool)
    (live : flag ≠ .brk ∧ flag ≠ .unused) : (status.set flag value).get flag = value := by
  cases flag <;> simp_all [get, set]

theorem bits_set (status : Status) (flag : Flag) (value : Bool) :
    (status.set flag value).bits = Packed.write status.bits flag value := by
  apply Flag.byte_ext
  intro other
  rw [Packed.getLsbD_write, ← get_eq_getLsbD, ← get_eq_getLsbD]
  split
  · rename_i here
    obtain ⟨rfl, live⟩ := here
    exact status.get_set_self value live
  · rename_i elsewhere
    by_cases same : other = flag
    · subst same
      cases other with
      | brk | unused => rfl
      | _ => simp at elsewhere
    · exact status.get_set_of_ne value same

theorem bits_ofBits_eq (byte : Byte) : (ofBits byte).bits = Packed.ofByte byte :=
  (bits_ofBits byte).trans rfl

theorem pushed_eq (status : Status) (brk : Bool) :
    status.pushed brk = Packed.pushed status.bits brk := by
  apply Flag.byte_ext
  intro flag
  obtain ⟨carry, zero, irqDisable, decimal, brkBit, unused, overflow, negative⟩ :=
    status.getLsbD_toByte brk
  rw [Packed.pushed, Packed.getLsbD_assign, ← get_eq_getLsbD]
  cases flag <;> assumption

theorem get_set_eq_of_eq (status other : Status) (flag : Flag) :
    (status.set flag (other.get flag)).get flag = other.get flag := by
  cases flag <;> rfl

theorem writes_bits {flags : List Flag} {first last : Status}
    (same : ∀ flag, flag ∉ flags → last.get flag = first.get flag) :
    Packed.Writes flags first.bits last.bits := by
  induction flags generalizing first with
  | nil =>
      have equal : last.bits = first.bits := by
        apply Flag.byte_ext
        intro flag
        rw [← get_eq_getLsbD, ← get_eq_getLsbD, same flag List.not_mem_nil]
      rw [equal]
      exact .done _
  | cons flag rest inductionHypothesis =>
      -- Once the first flag is written, only the others may differ.
      have written : ∀ other, other ∉ rest →
          last.get other = (first.set flag (last.get flag)).get other := by
        intro other untouched
        by_cases here : other = flag
        · subst here
          exact (first.get_set_eq_of_eq last other).symm
        · rw [first.get_set_of_ne _ here]
          exact same other fun member => (List.mem_cons.mp member).elim here untouched
      have writes := inductionHypothesis written
      rw [bits_set] at writes
      exact .write (List.mem_cons_self ..)
        (writes.mono fun other member => List.mem_cons_of_mem _ member)

/-- The operations on the flags are those on the packed byte. -/
structure Packs (status : Status) : Prop where
  set : ∀ flag value, (status.set flag value).bits = Packed.write status.bits flag value
  describing : ∀ value, (status.describing value).bits = Packed.describing status.bits value
  afterSum : ∀ accumulator operand sum,
    (status.afterSum accumulator operand sum).bits =
      Packed.afterSum status.bits accumulator operand sum
  afterCompare : ∀ register operand,
    (status.afterCompare register operand).bits =
      Packed.afterCompare status.bits register operand
  afterShift : ∀ result shiftedOut,
    (status.afterShift result shiftedOut).bits = Packed.afterShift status.bits result shiftedOut
  afterBitTest : ∀ accumulator operand,
    (status.afterBitTest accumulator operand).bits =
      Packed.afterBitTest status.bits accumulator operand
  pushed : ∀ brk, status.pushed brk = Packed.pushed status.bits brk

theorem built_bits (status : Status) : Packed.Built status.bits := by
  have everything : Packed.Writes Flag.all ({} : Status).bits status.bits :=
    writes_bits fun flag untouched => absurd (by cases flag <;> decide) untouched
  exact everything.built .fresh

theorem bits_describing (status : Status) (value : Byte) :
    (status.describing value).bits = Packed.describing status.bits value := by
  rw [Packed.describing, ← bits_set, ← bits_set]
  rfl

theorem packs (status : Status) : status.Packs := by
  constructor
  case set => exact status.bits_set
  case describing => exact status.bits_describing
  case afterSum =>
    intro accumulator operand sum
    rw [Packed.afterSum, ← bits_set, ← bits_set, ← bits_describing]
    rfl
  case afterCompare =>
    intro register operand
    rw [Packed.afterCompare, ← bits_set, ← bits_describing]
    rfl
  case afterShift =>
    intro result shiftedOut
    rw [Packed.afterShift, ← bits_set, ← bits_describing]
    rfl
  case afterBitTest =>
    intro accumulator operand
    rw [Packed.afterBitTest, ← bits_set, ← bits_set, ← bits_set]
    rfl
  case pushed => exact status.pushed_eq

end Status

end Nmos6502
