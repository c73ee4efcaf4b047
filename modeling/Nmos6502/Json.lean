/-!
# JSON values

A configuration is read from a JSON value.  Numbers written as integers are kept
apart from numbers written with a fraction or an exponent, because a byte may be
given only by the former.
-/

set_option autoImplicit false

namespace Nmos6502

inductive Json where
  | null
  | bool (value : Bool)
  | integer (value : Int)
  /-- A number that is not written as an integer: the mantissa times the given
  power of ten.  Negative zero belongs here, as no integer is negative zero. -/
  | real (mantissa exponent : Int)
  | string (text : String)
  | array (elements : List Json)
  | object (members : List (String × Json))

namespace Json

def bool? : Json → Option Bool
  | bool value => some value
  | _ => none

def byte? : Json → Option (BitVec 8)
  | integer value =>
      if 0 ≤ value ∧ value < 256 then some (BitVec.ofInt 8 value) else none
  | _ => none

/-- The value of a member; of two members with one name the later counts. -/
def member? (members : List (String × Json)) (name : String) : Option Json :=
  members.reverse.lookup name

theorem bool?_eq_some_iff {json : Json} {value : Bool} :
    json.bool? = some value ↔ json = bool value := by
  cases json <;> simp [bool?]

theorem byte?_eq_some_iff {json : Json} {byte : BitVec 8} :
    json.byte? = some byte ↔ json = integer byte.toNat := by
  cases json with
  | integer value =>
      simp only [byte?, Option.ite_none_right_eq_some, Option.some.injEq, integer.injEq]
      constructor
      · rintro ⟨bounds, rfl⟩
        rw [BitVec.toNat_ofInt]
        omega
      · rintro rfl
        have bound := byte.isLt
        exact ⟨by omega, by simp⟩
  | _ => simp [byte?]

end Json

end Nmos6502
