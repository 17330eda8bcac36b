import PropSchema.Text
import PropSchema.TypeGraph.Record
/-!
The shape of a type, which decides how it is classified. The shapes overlap, and the first that
fits counts: a function is also a record, and a union of void types is void before it is a union.
-/
namespace PropSchema

inductive TypeShape where
  | callable
  | void
  | string
  | number
  | boolean
  | any
  | literal
  | booleanLiteral
  | tuple
  | array
  | union
  | partialRecord
  | object
  | unknown
  deriving DecidableEq, Inhabited

def TypeShape.name : TypeShape → String
  | .callable => "callable"
  | .void => "void"
  | .string => "string"
  | .number => "number"
  | .boolean => "boolean"
  | .any => "any"
  | .literal => "literal"
  | .booleanLiteral => "boolean_literal"
  | .tuple => "tuple"
  | .array => "array"
  | .union => "union"
  | .partialRecord => "partial"
  | .object => "object"
  | .unknown => "unknown"

namespace TypeGraph

/-- Only the shared primitives are string, number, boolean and any; copies of them are not. -/
def nodeShape (g : TypeGraph) (id : NodeId) : TypeShape :=
  match g.form id with
  | .function _ => .callable
  | .literal (.bool _) => .booleanLiteral
  | .literal _ => .literal
  | .tuple _ => .tuple
  | .array _ => .array
  | .union _ => .union
  | .partialOf target => if g.isRecord target then .partialRecord else .object
  | .record _ => .object
  | .intersection _ => if g.isRecord id then .object else .unknown
  | .primitive _ =>
    if id = stringId then .string
    else if id = numberId then .number
    else if id = booleanId then .boolean
    else if id = anyId then .any
    else .unknown
  | _ => .unknown

def shape (g : TypeGraph) (use : TypeUse) : TypeShape :=
  if g.isVoidLike use then .void
  else match use with
    | .node id => g.nodeShape id
    | .union _ => .union

/-- The short name of a type: its own name, or the last part of its symbol. -/
def shortName (g : TypeGraph) (id : NodeId) : Option String :=
  let ofSymbol (symbol : Option String) : Option String :=
    (symbol.filter fun s => !s.isEmpty).map (Text.afterLast '.')
  match g.form id with
  | .parameter name _ => some name
  | .classDeclaration name _ => some name
  | .record r => match r.name with
    | some name => some name
    | none => ofSymbol r.symbol
  | .function f => ofSymbol f.symbol
  | .unresolved _ symbol => ofSymbol symbol
  | _ => none

end TypeGraph

end PropSchema
