import PropSchema.Classify
/-!
Components are the classes that derive from a marker. The props of a component are the first type
argument of its first deriving base.
-/
namespace PropSchema

/-- What components are told by, and what their props are classified by. -/
structure ComponentRules extends Rules where
  markers : List String

namespace Components

def defaultMarkers : List String := ["React.Component"]

/-- The number of base references in a graph. -/
def baseCount (g : TypeGraph) : Nat :=
  (List.range g.size).foldl (fun n id => n + (g.bases id).length) 0

/-- Whether a marker is among the pending types and what they derive from, but for those seen. -/
def searchTo (g : TypeGraph) (markers : List String) : Nat → List NodeId → List NodeId → Bool
  | 0, _, _ => false
  | _ + 1, [], _ => false
  | fuel + 1, id :: pending, seen =>
    if seen.contains id then searchTo g markers fuel pending seen
    else if (g.symbol id).any markers.contains then true
    else searchTo g markers fuel ((g.bases id).reverse ++ pending) (id :: seen)

/-- Whether a type is a marker or derives from one; each base reference is followed once. -/
def derives (g : TypeGraph) (markers : List String) (id : NodeId) : Bool :=
  searchTo g markers (baseCount g + 2) [id] []

/-- The name of a declaration. -/
def declarationName (g : TypeGraph) (id : NodeId) : String :=
  match g.form id with
  | .classDeclaration name _ => name
  | .primitive name => name
  | _ => (g.shortName id).getD ""

/-- The component that a class declares. -/
def ofClass (r : ComponentRules) (g : TypeGraph) (id : NodeId) : Pass (Option ComponentSpec) := do
  let name := declarationName g id
  match (g.bases id).find? (derives g r.markers) with
  | none => pure none
  | some base =>
    match g.arguments base with
    | [] =>
      Pass.note (.noProps name)
      pure none
    | props :: _ =>
      let slot ← Classify.propsSlot r.toRules g (.node props)
      Pass.note (.found name slot)
      pure (some ⟨name, slot⟩)

/-- Class declarations, each at its first place only. -/
def distinctClasses (g : TypeGraph) (declarations : List NodeId) : List NodeId :=
  addMissing [] (declarations.filter g.isClass)

/-- The components among declarations, with the table of all their props. -/
def find (r : ComponentRules) (g : TypeGraph) (declarations : List NodeId) : Pass Extraction := do
  let found ← (distinctClasses g declarations).mapM (ofClass r g)
  match (← get).result (found.filterMap id) with
  | .ok x => pure x
  | .error fault => throw fault

end Components

end PropSchema
