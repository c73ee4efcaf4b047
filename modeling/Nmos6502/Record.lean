import Nmos6502.Json
import Nmos6502.Word

/-!
# Records

A record is declared by its fields, in their order, each with a name and a default.
What reads records from JSON and writes them is not settled here: that is a codec
(`Codec`), and whoever reads a record is given one.  The plain codec
(`Codec.plain`) meets the members of an object one after the other and the elements
of an array in the order of the fields.
-/

set_option autoImplicit false

namespace Nmos6502

inductive Datum where
  | bool (value : Bool)
  | byte (value : Byte)
  deriving DecidableEq, Repr

def Datum.json : Datum → Json
  | bool value => .bool value
  | byte value => .integer value.toNat

/-- A field of a record.  A value of the field is of the kind of its default. -/
structure Field where
  name : String
  default : Datum

structure Scalars where
  bool? : Json → Option Bool
  byte? : Json → Option Byte

def Scalars.datum? (scalars : Scalars) (field : Field) (json : Json) : Option Datum :=
  match field.default with
  | .bool _ => (scalars.bool? json).map .bool
  | .byte _ => (scalars.byte? json).map .byte

/-- Reads declared records, and writes records with the names of their fields. -/
structure Codec extends Scalars where
  record? : List Field → Json → Option (List Datum)
  write : List (String × Datum) → Json

namespace Codec

def plainScalars : Scalars where
  bool? := Json.bool?
  byte? := Json.byte?

/-- Begins with the defaults and puts in what the members give, one after the other.  Of two
members with one name the later counts. -/
def ofMembers? (fields : List Field) : List (String × Json) → Option (List Datum)
  | [] => some (fields.map Field.default)
  | (name, value) :: rest =>
      if name ∈ rest.map Prod.fst then ofMembers? fields rest
      else match fields.findIdx? (·.name == name) with
        | none => ofMembers? fields rest
        | some index => do
            let field ← fields[index]?
            let datum ← plainScalars.datum? field value
            let data ← ofMembers? fields rest
            return data.set index datum

def ofElements? : List Field → List Json → Option (List Datum)
  | fields, [] => some (fields.map Field.default)
  | [], _ :: _ => none
  | field :: fields, value :: rest => do
      let datum ← plainScalars.datum? field value
      let data ← ofElements? fields rest
      return datum :: data

def plain : Codec where
  toScalars := plainScalars
  record? fields
    | .object members => ofMembers? fields members
    | .array elements => ofElements? fields elements
    | _ => none
  write record := .object (record.map fun (name, datum) => (name, datum.json))

end Codec

end Nmos6502
