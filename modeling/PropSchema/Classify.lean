import PropSchema.Classify.Context
import PropSchema.Registry
import PropSchema.TypeGraph.Shape
/-!
Classification turns types into prop types. Nullability is stripped first, a known symbol comes
before structure, and the shape decides the rest. Records go to the reference table, where a record
that its own members reach is met again by its slot. What is reported is written out, whether or not
the report is shown, so a type without text fails where it is to be reported.
-/
namespace PropSchema

/-- What becomes of a type that no rule fits: it is taken for anything, or it is a failure. -/
inductive ErrorPolicy where
  | lenient
  | strict
  deriving DecidableEq, Inhabited

def ErrorPolicy.name : ErrorPolicy → String
  | .lenient => "lenient"
  | .strict => "strict"

def ErrorPolicy.all : List ErrorPolicy := [.lenient, .strict]

def ErrorPolicy.ofName? (name : String) : Option ErrorPolicy :=
  ErrorPolicy.all.find? fun p => p.name == name

/-- What classification goes by, besides the types. -/
structure Rules where
  registry : Registry
  policy : ErrorPolicy

namespace TypeGraph

/-- The fully qualified name of a type in use; a union has none. -/
def symbolOf (g : TypeGraph) : TypeUse → Option String
  | .node id => g.symbol id
  | .union _ => none

def declaredNameOf (g : TypeGraph) : TypeUse → Option String
  | .node id => g.declaredName id
  | .union _ => none

def propertiesOf (g : TypeGraph) : TypeUse → List Property
  | .node id => g.properties id
  | .union _ => []

/--
How deep classification can go in a graph whose cycles all lead through records: no more records
than nodes are entered, and from one to the next no node comes twice.
-/
def classifyDepth (g : TypeGraph) : Nat := 6 * (g.size + 2) * (g.size + 2)

end TypeGraph

namespace Classify

/-- The type that stands for a parameter: the bound of a type parameter, if it has one. -/
def parameterUse (g : TypeGraph) (use : TypeUse) : TypeUse :=
  match use with
  | .node id => match g.constraint? id with
    | some bound => .node bound
    | none => use
  | .union _ => use

/-- The text that a reserved slot is reported with. -/
def slotTitle (g : TypeGraph) (use : TypeUse) : Option String :=
  match (g.declaredNameOf use).filter fun s => !s.isEmpty with
  | some name => some name
  | none => g.render use

/-- A type that no rule fits. -/
def unknownTo (r : Rules) (g : TypeGraph) (id : NodeId) : Pass PropType := do
  let text ← Pass.written (g.render (.node id))
  match r.policy with
  | .strict => throw (.unclassifiable text (g.shortName id) (g.location id))
  | .lenient => do
    Pass.note (.fellBack text)
    pure .any

mutual

/-- The schema of a type. -/
def specTo (r : Rules) (g : TypeGraph) : Nat → TypeUse → Pass PropSpec
  | 0, _ => throw .tooDeep
  | depth + 1, use => do
    let nullable := g.isNullable use
    let use := if nullable then g.nonNullable use else use
    let propType ← match r.registry.find? (g.symbolOf use) with
      | some known => pure known
      | none => propTypeTo r g depth use
    pure ⟨propType, nullable && !propType.isVoid⟩

/-- The prop type of a type by its shape. -/
def propTypeTo (r : Rules) (g : TypeGraph) : Nat → TypeUse → Pass PropType
  | 0, _ => throw .tooDeep
  | depth + 1, use =>
    match g.shape use, use with
    | .void, _ => pure .void
    | .string, _ => pure .string
    | .number, _ => pure .number
    | .boolean, _ => pure .boolean
    | .any, _ => pure .any
    | .union, use => do
      let leaves := (g.unionLeaves? use).getD []
      let options ← leaves.mapM fun leaf =>
        Pass.unionMember (do pure (← specTo r g depth (.node leaf)).propType)
      pure (.union options)
    | .object, use => do pure (.ref (← slotTo r g depth use))
    | _, .union _ => pure .any
    | _, .node id =>
      match g.form id with
      | .literal value => pure (.literal value)
      | .tuple elements => do
        let elements ← elements.mapM fun e => do
          pure (← specTo r g depth (.node e)).propType
        pure (.tuple elements)
      | .array element => do pure (.array (← specTo r g depth (.node element)).propType)
      | .partialOf target => do pure (.partialRef (← slotTo r g depth (.node target)))
      | .function _ =>
        match g.signature? id with
        | none => unknownTo r g id
        | some signature => do
          let args ← signature.parameters.mapM fun (_, use) =>
            specTo r g depth (parameterUse g use)
          pure (.fn args (← specTo r g depth (.node signature.result)))
      | _ => unknownTo r g id

/-- The slot of a record, which is made and filled at the first use. -/
def slotTo (r : Rules) (g : TypeGraph) : Nat → TypeUse → Pass Nat
  | 0, _ => throw .tooDeep
  | depth + 1, use => do
    let context ← get
    let identity := match use with
      | .node id => .node id
      | .union _ => .passing context.slots.length
    match context.lookup identity with
    | some slot => pure slot
    | none =>
      let slot ← Pass.reserve identity
      Pass.note (.reserved slot (← Pass.written (slotTitle g use)))
      let members ← (g.propertiesOf use).mapM fun p => memberTo r g depth p
      Pass.patch slot ⟨g.declaredNameOf use, members⟩
      pure slot

/-- The schema of a property. -/
def memberTo (r : Rules) (g : TypeGraph) : Nat → Property → Pass MemberSpec
  | 0, _ => throw .tooDeep
  | depth + 1, p =>
    Pass.within p.name (match g.propertyUse? p with
      | none => throw (.missingType p.name)
      | some use => do pure ⟨p.name, ← specTo r g depth use⟩)

end

/-- The schema of a type. -/
def spec (r : Rules) (g : TypeGraph) (use : TypeUse) : Pass PropSpec :=
  specTo r g g.classifyDepth use

/-- The slot of a record. -/
def slot (r : Rules) (g : TypeGraph) (use : TypeUse) : Pass Nat := slotTo r g g.classifyDepth use

/-- The slot of a component's props, whatever their type; nullability is stripped. -/
def propsSlot (r : Rules) (g : TypeGraph) (use : TypeUse) : Pass Nat :=
  slot r g (if g.isNullable use then g.nonNullable use else use)

end Classify

end PropSchema
