import PropSchema.Schema
/-!
Type graphs. A node is known by its number: two equal anonymous records are two nodes, and all
references to a named declaration lead to one. Properties may be filled in after a node is made,
so records may refer to themselves. A number beyond the graph reads as an unresolved type.
-/
namespace PropSchema

/-- A position in a source file; line and column count from one, the column in bytes. -/
structure Location where
  path : String
  line : Nat
  column : Nat
  deriving DecidableEq, Inhabited

def Location.text (l : Location) : String := s!"{l.path}:{l.line}:{l.column}"

abbrev NodeId := Nat

/--
A named member of a record. Without annotation it has no type; if it has no declaration either,
nothing is known about its type.
-/
structure Property (α : Type := NodeId) where
  name : String
  type? : Option α
  optional : Bool
  declaration : Option Location
  deriving DecidableEq, Inhabited

structure Parameter (α : Type := NodeId) where
  name : String
  type : α
  optional : Bool
  deriving DecidableEq, Inhabited

/-- A record: interface, object literal, class instance or opaque library type. -/
structure RecordType (α : Type := NodeId) where
  name : Option String
  properties : List (Property α)
  symbol : Option String
  arguments : List α
  bases : List α
  deriving Inhabited

structure FunctionType (α : Type := NodeId) where
  parameters : List (Parameter α)
  result : α
  symbol : Option String
  deriving Inhabited

/-- The forms of nodes, given what nodes are known by. -/
inductive TypeForm (α : Type := NodeId) where
  | primitive (name : String)
  | literal (value : LiteralValue)
  | union (members : List α)
  | intersection (members : List α)
  | array (element : α)
  | tuple (elements : List α)
  | parameter (name : String) (constraint : Option α)
  | function (type : FunctionType α)
  | record (type : RecordType α)
  | partialOf (target : α)
  /-- A reference without structure. -/
  | unresolved (text : String) (symbol : Option String)
  /-- A class as a declaration, not as the type of its instances. -/
  | classDeclaration (name : String) (bases : List α)
  deriving Inhabited

structure TypeNode where
  form : TypeForm
  location : Option Location
  deriving Inhabited

structure TypeGraph where
  nodes : Array TypeNode
  deriving Inhabited

namespace TypeGraph

/-- The names of the shared primitives, in the order of their numbers. -/
def primitiveNames : List String :=
  ["any", "unknown", "never", "void", "undefined", "null", "string", "number", "boolean",
   "bigint", "symbol"]

def anyId : NodeId := 0
def voidId : NodeId := 3
def undefinedId : NodeId := 4
def nullId : NodeId := 5
def stringId : NodeId := 6
def numberId : NodeId := 7
def booleanId : NodeId := 8

/-- The shared primitive of a name. -/
def primitive? (name : String) : Option NodeId := primitiveNames.idxOf? name

/-- The graph that holds the shared primitives alone. -/
def initial : TypeGraph := ⟨(primitiveNames.map fun name => ⟨.primitive name, none⟩).toArray⟩

def size (g : TypeGraph) : Nat := g.nodes.size

def node (g : TypeGraph) (id : NodeId) : TypeNode :=
  g.nodes.getD id ⟨.unresolved "" none, none⟩

def form (g : TypeGraph) (id : NodeId) : TypeForm := (g.node id).form

def location (g : TypeGraph) (id : NodeId) : Option Location := (g.node id).location

/-- Steps from node to node that no path without repetition exceeds. -/
def depth (g : TypeGraph) : Nat := g.size + 1

/-- The graph with one more node, and that node's number. -/
def push (g : TypeGraph) (form : TypeForm) (location : Option Location) : NodeId × TypeGraph :=
  (g.size, ⟨g.nodes.push ⟨form, location⟩⟩)

/-- The graph with another form at a node. -/
def setForm (g : TypeGraph) (id : NodeId) (form : TypeForm) : TypeGraph :=
  ⟨g.nodes.modify id fun n => { n with form }⟩

/-- The graph with a record changed; nodes that are no records stay as they are. -/
def modifyRecord (g : TypeGraph) (id : NodeId) (change : RecordType → RecordType) : TypeGraph :=
  match g.form id with
  | .record r => g.setForm id (.record (change r))
  | _ => g

/-- Whether a primitive of this name stands for no value; copies of a primitive count. -/
def isNullish (g : TypeGraph) (id : NodeId) : Bool :=
  match g.form id with
  | .primitive name => name == "undefined" || name == "null"
  | _ => false

/-- The fully qualified name under which a type is looked up. -/
def symbol (g : TypeGraph) (id : NodeId) : Option String :=
  match g.form id with
  | .function f => f.symbol
  | .record r => r.symbol
  | .unresolved _ symbol => symbol
  | _ => none

/-- The name that a record was declared with. -/
def declaredName (g : TypeGraph) (id : NodeId) : Option String :=
  match g.form id with
  | .record r => r.name
  | _ => none

def bases (g : TypeGraph) (id : NodeId) : List NodeId :=
  match g.form id with
  | .record r => r.bases
  | .classDeclaration _ bases => bases
  | _ => []

def arguments (g : TypeGraph) (id : NodeId) : List NodeId :=
  match g.form id with
  | .record r => r.arguments
  | _ => []

/-- The bound of a type parameter. -/
def constraint? (g : TypeGraph) (id : NodeId) : Option NodeId :=
  match g.form id with
  | .parameter _ constraint => constraint
  | _ => none

def isClass (g : TypeGraph) (id : NodeId) : Bool :=
  match g.form id with
  | .classDeclaration _ _ => true
  | _ => false

end TypeGraph

end PropSchema
