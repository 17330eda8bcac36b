import PropSchema.Entries
import PropSchema.Numeral
/-!
JSON values. Objects are lists of fields in written order, and an integer is another value than
the binary64 number equal to it.
-/
namespace PropSchema

inductive Json where
  | null
  | bool (value : Bool)
  | int (value : Int)
  | float (value : Binary64)
  | str (value : String)
  | arr (items : List Json)
  | obj (fields : List (String × Json))
  deriving Inhabited

namespace Json

def ofNumeral : Numeral → Json
  | .int n => .int n
  | .float x => .float x

def ofOptionString : Option String → Json
  | none => .null
  | some s => .str s

/-- The first field of a name in an object. -/
def field? (name : String) : Json → Option Json
  | .obj fields => fields.lookup name
  | _ => none

end Json

end PropSchema
