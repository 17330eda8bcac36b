import PropSchema.TypeGraph.Union
/-!
Records and functions. Objects, functions and partial types are records, and so is an intersection
of records. The properties of an intersection are those of its members, the first of each name;
a partial type makes the properties of its target optional.
-/
namespace PropSchema

/-- A function as classification meets it: the types of its parameters in use, and its result. -/
structure Signature where
  parameters : List (String × TypeUse)
  result : NodeId

/-- The first property of each name. -/
def firstOfEachName (properties : List Property) : List Property :=
  properties.foldl (fun kept p =>
    if kept.any fun k => k.name == p.name then kept else kept ++ [p]) []

namespace TypeGraph

def isRecordTo (g : TypeGraph) : Nat → NodeId → Bool
  | 0, _ => false
  | depth + 1, id =>
    match g.form id with
    | .record _ => true
    | .partialOf _ => true
    | .function _ => true
    | .intersection members => !members.isEmpty && members.all (isRecordTo g depth)
    | _ => false

def isRecord (g : TypeGraph) (id : NodeId) : Bool := g.isRecordTo g.depth id

/-- The target of a partial type over a record. -/
def partialTarget? (g : TypeGraph) (id : NodeId) : Option NodeId :=
  match g.form id with
  | .partialOf target => if g.isRecord target then some target else none
  | _ => none

def propertiesTo (g : TypeGraph) : Nat → NodeId → List Property
  | 0, _ => []
  | depth + 1, id =>
    match g.form id with
    | .record r => r.properties
    | .partialOf target => (propertiesTo g depth target).map fun p => { p with optional := true }
    | .intersection members => firstOfEachName (members.flatMap (propertiesTo g depth))
    | _ => []

def properties (g : TypeGraph) (id : NodeId) : List Property := g.propertiesTo g.depth id

/-- A type marked optional may also be undefined. -/
def optionalUse (g : TypeGraph) (id : NodeId) (optional : Bool) : TypeUse :=
  if optional then g.unionUse [id, undefinedId] else .node id

/-- The type of a property in use; one that was declared without annotation may be anything. -/
def propertyUse? (g : TypeGraph) (p : Property) : Option TypeUse :=
  match p.type? with
  | some id => some (g.optionalUse id p.optional)
  | none => if p.declaration.isSome then some (.node anyId) else none

def signature? (g : TypeGraph) (id : NodeId) : Option Signature :=
  match g.form id with
  | .function f =>
    some ⟨f.parameters.map fun p => (p.name, g.optionalUse p.type p.optional), f.result⟩
  | _ => none

end TypeGraph

end PropSchema
