import PropSchema.Binary64
/-!
Schemas of component props. A prop type is one of a closed set of variants; records are entries of
a reference table and prop types point at them by index, so recursive props stay finite.
-/
namespace PropSchema

/-- The value of a literal type; an integer and the equal binary64 number are two literals. -/
inductive LiteralValue where
  | str (value : String)
  | int (value : Int)
  | float (value : Binary64)
  | bool (value : Bool)
  deriving DecidableEq, Inhabited

namespace LiteralValue

/-- Equality of literals: of one kind and of equal value, where a NaN equals nothing. -/
def same : LiteralValue → LiteralValue → Bool
  | .str a, .str b => a == b
  | .int a, .int b => a == b
  | .float a, .float b => a.sameNumber b
  | .bool a, .bool b => a == b
  | _, _ => false

end LiteralValue

/-- A schema together with its nullability. -/
structure Spec (α : Type) where
  propType : α
  isNullable : Bool

/-- The variants of prop schemas. -/
inductive PropType where
  | any
  | void
  | string
  | number
  | boolean
  | event
  | reactElement
  | reactNode
  | literal (value : LiteralValue)
  | union (options : List PropType)
  | array (element : PropType)
  | tuple (elements : List PropType)
  /-- A record of the reference table. -/
  | ref (index : Int)
  /-- A record of the reference table whose members are all nullable. -/
  | partialRef (index : Int)
  | fn (args : List (Spec PropType)) (result : Spec PropType)
  deriving Inhabited

abbrev PropSpec := Spec PropType

instance : Inhabited PropSpec := ⟨⟨.any, false⟩⟩

namespace PropType

/-- The variants without payload, in the order in which they are listed to users. -/
def simple : List (String × PropType) :=
  [("any", .any), ("void", .void), ("string", .string), ("number", .number),
   ("boolean", .boolean), ("event", .event), ("reactElement", .reactElement),
   ("reactNode", .reactNode)]

def isVoid : PropType → Bool
  | .void => true
  | _ => false

mutual

/-- Every table index of a prop type, from left to right. -/
def indices : PropType → List Int
  | .union options => indicesAll options
  | .array element => indices element
  | .tuple elements => indicesAll elements
  | .ref index => [index]
  | .partialRef index => [index]
  | .fn args result => indicesSpecs args ++ indicesSpec result
  | _ => []

def indicesAll : List PropType → List Int
  | [] => []
  | t :: ts => indices t ++ indicesAll ts

def indicesSpec : Spec PropType → List Int
  | ⟨t, _⟩ => indices t

def indicesSpecs : List (Spec PropType) → List Int
  | [] => []
  | s :: ss => indicesSpec s ++ indicesSpecs ss

end

mutual

/-- The prop type with every table index shifted by `offset`. -/
def shift (offset : Int) : PropType → PropType
  | .union options => .union (shiftAll offset options)
  | .array element => .array (shift offset element)
  | .tuple elements => .tuple (shiftAll offset elements)
  | .ref index => .ref (index + offset)
  | .partialRef index => .partialRef (index + offset)
  | .fn args result => .fn (shiftSpecs offset args) (shiftSpec offset result)
  | t => t

def shiftAll (offset : Int) : List PropType → List PropType
  | [] => []
  | t :: ts => shift offset t :: shiftAll offset ts

def shiftSpec (offset : Int) : Spec PropType → Spec PropType
  | ⟨t, n⟩ => ⟨shift offset t, n⟩

def shiftSpecs (offset : Int) : List (Spec PropType) → List (Spec PropType)
  | [] => []
  | s :: ss => shiftSpec offset s :: shiftSpecs offset ss

end

mutual

/-- Equality of prop types, with literals compared as `LiteralValue.same` does. -/
def same : PropType → PropType → Bool
  | .any, .any => true
  | .void, .void => true
  | .string, .string => true
  | .number, .number => true
  | .boolean, .boolean => true
  | .event, .event => true
  | .reactElement, .reactElement => true
  | .reactNode, .reactNode => true
  | .literal a, .literal b => a.same b
  | .union as, .union bs => sameAll as bs
  | .array a, .array b => same a b
  | .tuple as, .tuple bs => sameAll as bs
  | .ref i, .ref j => i == j
  | .partialRef i, .partialRef j => i == j
  | .fn as a, .fn bs b => sameSpecs as bs && sameSpec a b
  | _, _ => false

def sameAll : List PropType → List PropType → Bool
  | [], [] => true
  | a :: as, b :: bs => same a b && sameAll as bs
  | _, _ => false

def sameSpec : Spec PropType → Spec PropType → Bool
  | ⟨a, m⟩, ⟨b, n⟩ => same a b && m == n

def sameSpecs : List (Spec PropType) → List (Spec PropType) → Bool
  | [], [] => true
  | a :: as, b :: bs => sameSpec a b && sameSpecs as bs
  | _, _ => false

end

end PropType

namespace Spec

def shift (offset : Int) (s : PropSpec) : PropSpec := ⟨s.propType.shift offset, s.isNullable⟩

end Spec

/-- A named member of a record. -/
structure MemberSpec where
  name : String
  spec : PropSpec
  deriving Inhabited

/-- An entry of the reference table; an anonymous record has no name. -/
structure RecordSpec where
  name : Option String
  members : List MemberSpec
  deriving Inhabited

/-- A component and the index of its props in the reference table. -/
structure ComponentSpec where
  name : String
  props : Int
  deriving DecidableEq, Inhabited

namespace MemberSpec

def shift (offset : Int) (m : MemberSpec) : MemberSpec := ⟨m.name, m.spec.shift offset⟩

def indices (m : MemberSpec) : List Int := m.spec.propType.indices

end MemberSpec

namespace RecordSpec

/-- The first member of a name. -/
def member? (r : RecordSpec) (name : String) : Option MemberSpec :=
  r.members.find? fun m => m.name == name

def shift (offset : Int) (r : RecordSpec) : RecordSpec :=
  ⟨r.name, r.members.map (MemberSpec.shift offset)⟩

def indices (r : RecordSpec) : List Int := r.members.flatMap MemberSpec.indices

end RecordSpec

namespace ComponentSpec

def shift (offset : Int) (c : ComponentSpec) : ComponentSpec := ⟨c.name, c.props + offset⟩

end ComponentSpec

end PropSchema
