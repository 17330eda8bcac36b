import PropSchema.Json
import PropSchema.Binary64.Shortest
/-!
The text of a JSON value in ASCII. Without an indent it is one line with a blank after each comma
and colon; with one, each item stands on a line of its own and only empty containers stay closed. A
value with an integer of too many digits has no text.
-/
namespace PropSchema.Json

/-- Numbers are written as `Binary64.layout` has them, and the special ones have names. -/
def numberLayout : Binary64.Layout := { Binary64.layout with infinity := "Infinity", nan := "NaN" }

def intChars (n : Int) : List Char :=
  if n < 0 then '-' :: Nat.toDigits 10 n.natAbs else Nat.toDigits 10 n.natAbs

/-- A UTF-16 unit as an escape. -/
def unitEscape (n : Nat) : List Char :=
  '\\' :: 'u' :: Binary64.padLeft 4 (Nat.toDigits 16 n)

/-- A character inside a string; characters beyond the basic plane take two escapes. -/
def escapeChar (c : Char) : List Char :=
  if c = '"' then ['\\', '"']
  else if c = '\\' then ['\\', '\\']
  else if c = '\n' then ['\\', 'n']
  else if c = '\r' then ['\\', 'r']
  else if c = '\t' then ['\\', 't']
  else if c = '\x0c' then ['\\', 'f']
  else if c = '\x08' then ['\\', 'b']
  else if ' ' ≤ c ∧ c ≤ '~' then [c]
  else if c.toNat < 0x10000 then unitEscape c.toNat
  else unitEscape (0xD800 + (c.toNat - 0x10000) / 0x400) ++
    unitEscape (0xDC00 + (c.toNat - 0x10000) % 0x400)

def stringChars (s : String) : List Char :=
  '"' :: (s.toList.flatMap escapeChar ++ ['"'])

/-- The line break before an item at a depth. -/
def breakChars (indent : Option Nat) (depth : Nat) : List Char :=
  match indent with
  | none => []
  | some width => '\n' :: List.replicate (width * depth) ' '

/-- What stands between two items at a depth. -/
def separatorChars (indent : Option Nat) (depth : Nat) : List Char :=
  match indent with
  | none => [',', ' ']
  | some _ => ',' :: breakChars indent depth

mutual

/-- The text of a value that stands at a depth. -/
def chars (indent : Option Nat) (depth : Nat) : Json → List Char
  | .null => "null".toList
  | .bool true => "true".toList
  | .bool false => "false".toList
  | .int n => intChars n
  | .float x => Binary64.chars numberLayout x
  | .str s => stringChars s
  | .arr [] => ['[', ']']
  | .arr (item :: items) =>
    '[' :: (breakChars indent (depth + 1) ++ chars indent (depth + 1) item ++
      itemsChars indent (depth + 1) items ++ breakChars indent depth ++ [']'])
  | .obj [] => ['{', '}']
  | .obj ((name, value) :: fields) =>
    '{' :: (breakChars indent (depth + 1) ++ stringChars name ++ [':', ' '] ++
      chars indent (depth + 1) value ++ fieldsChars indent (depth + 1) fields ++
      breakChars indent depth ++ ['}'])

/-- The items after the first. -/
def itemsChars (indent : Option Nat) (depth : Nat) : List Json → List Char
  | [] => []
  | item :: items =>
    separatorChars indent depth ++ chars indent depth item ++ itemsChars indent depth items

/-- The fields after the first. -/
def fieldsChars (indent : Option Nat) (depth : Nat) : List (String × Json) → List Char
  | [] => []
  | (name, value) :: fields =>
    separatorChars indent depth ++ stringChars name ++ [':', ' '] ++ chars indent depth value ++
      fieldsChars indent depth fields

end

/-- A value written out, with an indent of so many blanks a level or on one line. -/
def text (indent : Option Nat) (value : Json) : String := String.ofList (chars indent 0 value)

mutual

/-- Whether a value has a text: no integer in it has too many digits. -/
def isWritable : Json → Bool
  | .int n => Numeral.isWritable n
  | .arr items => areWritable items
  | .obj fields => fieldsWritable fields
  | _ => true

def areWritable : List Json → Bool
  | [] => true
  | item :: items => isWritable item && areWritable items

def fieldsWritable : List (String × Json) → Bool
  | [] => true
  | (_, value) :: fields => isWritable value && fieldsWritable fields

end

/-- The text of a value, if it has one. -/
def render (indent : Option Nat) (value : Json) : Option String :=
  if value.isWritable then some (value.text indent) else none

mutual

/-- The value with the fields of every object sorted by name. -/
def sorted : Json → Json
  | .arr items => .arr (sortedItems items)
  | .obj fields => .obj ((sortedFields fields).mergeSort fun a b => Text.le a.1 b.1)
  | value => value

def sortedItems : List Json → List Json
  | [] => []
  | item :: items => sorted item :: sortedItems items

def sortedFields : List (String × Json) → List (String × Json)
  | [] => []
  | (name, value) :: fields => (name, sorted value) :: sortedFields fields

end

/-- The text of a value with sorted fields, if it has one. -/
def renderSorted (indent : Option Nat) (value : Json) : Option String :=
  if value.isWritable then some (value.sorted.text indent) else none

end PropSchema.Json
