import PropSchema.Json
import PropSchema.Schema.Extraction
/-!
The wire form of schemas as JSON values, and the reader that accepts exactly the values of that
form. Further fields are ignored, and indices must point into the table they come with.
-/
namespace PropSchema

/-- The kinds of field values that the wire form asks for. -/
inductive WireKind where
  | text
  | integer
  | flag
  | list
  | mapping
  deriving DecidableEq

def WireKind.word : WireKind → String
  | .text => "str"
  | .integer => "int"
  | .flag => "bool"
  | .list => "list"
  | .mapping => "Mapping"

/-- Why a value is not of the wire form. -/
inductive WireFault where
  | payload
  | recordEntry
  | recordName
  | literalValue
  | missingField (key : String)
  | flagForInteger (key : String)
  | wrongKind (key : String) (kind : WireKind)
  | unknownKind (kind : String)
  | dangling (index : DanglingIndex)
  deriving DecidableEq

def WireFault.message : WireFault → String
  | .payload => "FinderResult payload must be a mapping"
  | .recordEntry => "Reference entry must be a mapping"
  | .recordName => "Reference name must be a string or null"
  | .literalValue => "Literal value must be a string, number or boolean"
  | .missingField key => s!"Missing field '{key}'"
  | .flagForInteger key => s!"Field '{key}' must be an integer"
  | .wrongKind key kind => s!"Field '{key}' must be of type {kind.word}"
  | .unknownKind kind => s!"Unknown prop type kind '{kind}'"
  | .dangling ⟨index, size⟩ => s!"Reference index {index} out of range for {size} refs"

namespace Wire

def ofLiteral : LiteralValue → Json
  | .str s => .str s
  | .int n => .int n
  | .float x => .float x
  | .bool b => .bool b

def tagged (kind : String) (fields : List (String × Json)) : Json :=
  .obj (("kind", .str kind) :: fields)

mutual

def ofPropType : PropType → Json
  | .any => tagged "any" []
  | .void => tagged "void" []
  | .string => tagged "string" []
  | .number => tagged "number" []
  | .boolean => tagged "boolean" []
  | .event => tagged "event" []
  | .reactElement => tagged "reactElement" []
  | .reactNode => tagged "reactNode" []
  | .literal value => tagged "literal" [("value", ofLiteral value)]
  | .union options => tagged "union" [("options", .arr (ofPropTypes options))]
  | .array element => tagged "array" [("elementPropType", ofPropType element)]
  | .tuple elements => tagged "tuple" [("elementPropTypes", .arr (ofPropTypes elements))]
  | .ref index => tagged "ref" [("refIndex", .int index)]
  | .partialRef index => tagged "partial" [("refIndex", .int index)]
  | .fn args result =>
    tagged "fn" [("argTypes", .arr (ofSpecs args)), ("returnType", ofSpec result)]

def ofPropTypes : List PropType → List Json
  | [] => []
  | t :: ts => ofPropType t :: ofPropTypes ts

def ofSpec : Spec PropType → Json
  | ⟨t, n⟩ => .obj [("propType", ofPropType t), ("isNullable", .bool n)]

def ofSpecs : List (Spec PropType) → List Json
  | [] => []
  | s :: ss => ofSpec s :: ofSpecs ss

end

def ofMember (m : MemberSpec) : Json :=
  .obj [("name", .str m.name), ("propType", ofPropType m.spec.propType),
    ("isNullable", .bool m.spec.isNullable)]

def ofRecord (r : RecordSpec) : Json :=
  .obj [("name", Json.ofOptionString r.name), ("members", .arr (r.members.map ofMember))]

def ofComponent (c : ComponentSpec) : Json :=
  .obj [("name", .str c.name), ("propsRefIndex", .int c.props)]

def ofExtraction (x : Extraction) : Json :=
  .obj [("components", .arr (x.components.map ofComponent)), ("refs", .arr (x.refs.map ofRecord))]

/-- A field of an object is smaller than the object. -/
theorem sizeOf_lookup_lt {fields : List (String × Json)} {key : String} {value : Json}
    (h : fields.lookup key = some value) : sizeOf value < sizeOf fields := by
  induction fields with
  | nil => simp at h
  | cons field rest ih =>
    obtain ⟨name, v⟩ := field
    rw [List.lookup_cons] at h
    split at h
    · cases h
      simp
      omega
    · have := ih h
      simp
      omega

theorem sizeOf_field?_lt {p value : Json} {key : String} (h : p.field? key = some value) :
    sizeOf value < sizeOf p := by
  cases p with
  | obj fields =>
    have := sizeOf_lookup_lt (show fields.lookup key = some value from h)
    simp
    omega
  | _ => simp [Json.field?] at h

/-- A field that must be there. -/
def require (p : Json) (key : String) : Except WireFault { v : Json // sizeOf v < sizeOf p } :=
  match h : p.field? key with
  | none => .error (.missingField key)
  | some value => .ok ⟨value, sizeOf_field?_lt h⟩

def requireText (p : Json) (key : String) : Except WireFault String := do
  match ← require p key with
  | ⟨.str s, _⟩ => pure s
  | _ => throw (.wrongKind key .text)

def requireInteger (p : Json) (key : String) : Except WireFault Int := do
  match ← require p key with
  | ⟨.int n, _⟩ => pure n
  | ⟨.bool _, _⟩ => throw (.flagForInteger key)
  | _ => throw (.wrongKind key .integer)

def requireFlag (p : Json) (key : String) : Except WireFault Bool := do
  match ← require p key with
  | ⟨.bool b, _⟩ => pure b
  | _ => throw (.wrongKind key .flag)

def requireList (p : Json) (key : String) :
    Except WireFault { items : List Json // sizeOf items < sizeOf p } := do
  match ← require p key with
  | ⟨.arr items, h⟩ => pure ⟨items, by simp at h; omega⟩
  | _ => throw (.wrongKind key .list)

def requireMapping (p : Json) (key : String) :
    Except WireFault { v : Json // sizeOf v < sizeOf p } := do
  match ← require p key with
  | ⟨.obj fields, h⟩ => pure ⟨.obj fields, h⟩
  | _ => throw (.wrongKind key .mapping)

def toLiteral (p : Json) : Except WireFault LiteralValue :=
  match p.field? "value" with
  | some (.str s) => .ok (.str s)
  | some (.int n) => .ok (.int n)
  | some (.float x) => .ok (.float x)
  | some (.bool b) => .ok (.bool b)
  | _ => .error .literalValue

mutual

def toPropType (p : Json) : Except WireFault PropType := do
  let kind ← requireText p "kind"
  match PropType.simple.lookup kind with
  | some t => pure t
  | none =>
    match kind with
    | "literal" => pure (.literal (← toLiteral p))
    | "union" =>
      let ⟨items, _⟩ ← requireList p "options"
      pure (.union (← toPropTypes items))
    | "array" =>
      let ⟨v, _⟩ ← requireMapping p "elementPropType"
      pure (.array (← toPropType v))
    | "tuple" =>
      let ⟨items, _⟩ ← requireList p "elementPropTypes"
      pure (.tuple (← toPropTypes items))
    | "ref" => pure (.ref (← requireInteger p "refIndex"))
    | "partial" => pure (.partialRef (← requireInteger p "refIndex"))
    | "fn" =>
      let ⟨items, _⟩ ← requireList p "argTypes"
      let args ← toSpecs items
      let ⟨v, _⟩ ← requireMapping p "returnType"
      pure (.fn args (← toSpec v))
    | kind => throw (.unknownKind kind)
termination_by sizeOf p

def toPropTypes (ps : List Json) : Except WireFault (List PropType) :=
  match ps with
  | [] => pure []
  | p :: ps => do
    let t ← toPropType p
    pure (t :: (← toPropTypes ps))
termination_by sizeOf ps

def toSpec (p : Json) : Except WireFault PropSpec := do
  let ⟨v, _⟩ ← requireMapping p "propType"
  let t ← toPropType v
  pure ⟨t, ← requireFlag p "isNullable"⟩
termination_by sizeOf p

def toSpecs (ps : List Json) : Except WireFault (List PropSpec) :=
  match ps with
  | [] => pure []
  | p :: ps => do
    let s ← toSpec p
    pure (s :: (← toSpecs ps))
termination_by sizeOf ps

end

def toMember (p : Json) : Except WireFault MemberSpec := do
  let name ← requireText p "name"
  let ⟨v, _⟩ ← requireMapping p "propType"
  let t ← toPropType v
  pure ⟨name, ⟨t, ← requireFlag p "isNullable"⟩⟩

def toRecordName : Option Json → Except WireFault (Option String)
  | none => .ok none
  | some .null => .ok none
  | some (.str s) => .ok (some s)
  | some _ => .error .recordName

def toRecord (p : Json) : Except WireFault RecordSpec :=
  match p with
  | .obj _ => do
    let name ← toRecordName (p.field? "name")
    let ⟨items, _⟩ ← requireList p "members"
    pure ⟨name, ← items.mapM toMember⟩
  | _ => throw .recordEntry

def toComponent (p : Json) : Except WireFault ComponentSpec := do
  let name ← requireText p "name"
  pure ⟨name, ← requireInteger p "propsRefIndex"⟩

/-- An extraction whose indices all point into its table. -/
def toExtraction (p : Json) : Except WireFault Extraction :=
  match p with
  | .obj _ => do
    let ⟨components, _⟩ ← requireList p "components"
    let components ← components.mapM toComponent
    let ⟨refs, _⟩ ← requireList p "refs"
    let refs ← refs.mapM toRecord
    let x : Extraction := ⟨components, refs⟩
    match x.dangling? with
    | some index => throw (.dangling index)
    | none => pure x
  | _ => throw .payload

end Wire

end PropSchema
