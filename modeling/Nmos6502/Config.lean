import Nmos6502.Record

/-!
# Configuration

Three settings, each with a default.  As a record (`Config.fields`) a configuration
can be read from JSON and written by any codec.
-/

set_option autoImplicit false

namespace Nmos6502

structure Config where
  /-- Whether an undocumented opcode is a fault; otherwise it does nothing. -/
  strict : Bool := true
  /-- Whether addition and subtraction obey the decimal flag. -/
  decimalMode : Bool := true
  /-- The stack pointer after a reset. -/
  resetSp : Byte := 0xFD
  deriving DecidableEq, Repr

namespace Config

def names : List String := ["strict", "decimal_mode", "reset_sp"]

def data (config : Config) : List Datum :=
  [.bool config.strict, .bool config.decimalMode, .byte config.resetSp]

def ofData? : List Datum → Option Config
  | [.bool strict, .bool decimalMode, .byte resetSp] => some { strict, decimalMode, resetSp }
  | _ => none

/-- The declaration of the record: a missing setting has the value that it has in the default
configuration. -/
def fields : List Field := names.zipWith Field.mk ({} : Config).data

def read? (codec : Codec) (json : Json) : Option Config :=
  (codec.record? fields json).bind ofData?

def write (codec : Codec) (config : Config) : Json := codec.write (names.zip config.data)

def toArray (config : Config) : Json := .array (config.data.map Datum.json)

def ofJson? : Json → Option Config := read? .plain

def toJson : Config → Json := write .plain

end Config

end Nmos6502
