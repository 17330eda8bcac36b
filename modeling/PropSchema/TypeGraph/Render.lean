import PropSchema.Json.Printer
import PropSchema.TypeGraph.Union
/-!
Types as text, for messages: declared names where there are any, structure elsewhere, and of an
anonymous record the names of its properties. A type with an integer of too many digits in its text
has none.
-/
namespace PropSchema

def LiteralValue.text : LiteralValue → Option String
  | .str s => (Json.str s).render none
  | .int n => (Json.int n).render none
  | .float x => (Json.float x).render none
  | .bool b => (Json.bool b).render none

namespace TypeGraph

/-- The text of a node, written out down to a depth. -/
def renderTo (g : TypeGraph) : Nat → NodeId → Option String
  | 0, _ => some ""
  | depth + 1, id =>
    let join (separator : String) (ids : List NodeId) : Option String :=
      (ids.mapM (renderTo g depth)).map separator.intercalate
    match g.form id with
    | .primitive name => some name
    | .literal value => value.text
    | .union members => join " | " members
    | .intersection members => join " & " members
    | .array element => do
      let inner ← renderTo g depth element
      pure (match g.form element with
        | .union _ => "(" ++ inner ++ ")[]"
        | .intersection _ => "(" ++ inner ++ ")[]"
        | .function _ => "(" ++ inner ++ ")[]"
        | _ => inner ++ "[]")
    | .tuple elements => do pure ("[" ++ (← join ", " elements) ++ "]")
    | .parameter name _ => some name
    | .function f => do
      let parameters ← f.parameters.mapM fun p => do
        pure (p.name ++ (if p.optional then "?" else "") ++ ": " ++ (← renderTo g depth p.type))
      pure ("(" ++ ", ".intercalate parameters ++ ") => " ++ (← renderTo g depth f.result))
    | .record r =>
      match r.name.filter fun name => !name.isEmpty with
      | some name =>
        if r.arguments.isEmpty then some name
        else do pure (name ++ "<" ++ (← join ", " r.arguments) ++ ">")
      | none =>
        if r.properties.isEmpty then some "\x7b\x7d"
        else some ("\x7b " ++ "; ".intercalate (r.properties.map Property.name) ++ " \x7d")
    | .partialOf target => do pure ("Partial<" ++ (← renderTo g depth target) ++ ">")
    | .unresolved text _ => some text
    | .classDeclaration name _ => some name

def render (g : TypeGraph) : TypeUse → Option String
  | .node id => g.renderTo g.depth id
  | .union leaves => (leaves.mapM (g.renderTo g.depth)).map " | ".intercalate

end TypeGraph

end PropSchema
