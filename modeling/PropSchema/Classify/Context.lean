import PropSchema.Schema.Extraction
import PropSchema.TypeGraph.Render
/-!
The context of an extraction pass: the reference table under construction, the memo from types to
its slots, and the names of the members being classified. A slot is reserved before the members of
its record are classified and filled afterwards. The context outlives a failure, so slots that a
failed classification has reserved stay unfilled.
-/
namespace PropSchema

/-- What the memo knows a type by: its node, or, for a union without node, the slot it got. -/
inductive TypeIdentity where
  | node (id : NodeId)
  | passing (slot : Nat)
  deriving DecidableEq

/-- Why a type has no schema, or why a table cannot be completed. -/
inductive PassFault where
  /-- No rule fits the type, and the policy is strict. -/
  | unclassifiable (text : String) (symbol : Option String) (location : Option Location)
  /-- A property has neither a type nor a declaration. -/
  | missingType (property : String)
  /-- A member of a union, met inside a record member or at the top, has no schema. -/
  | unionMember (property : Option String) (cause : PassFault)
  | slotFilled (index : Int)
  | noSlot
  | unfinished (slots : List Nat)
  | dangling (index : DanglingIndex)
  /-- A type that has no text has to be reported. -/
  | unwritable
  /-- The types lead into each other without a record between them. -/
  | tooDeep
  deriving DecidableEq, Inhabited

namespace PassFault

def message : PassFault → String
  | .unclassifiable text symbol location =>
    let shown := match symbol.filter fun s => !s.isEmpty with
      | some s => [s!"(symbol {s})"]
      | none => []
    let place := match location with
      | some l => [s!"at {l.text}"]
      | none => []
    " ".intercalate ([s!"Cannot classify type `{text}`"] ++ shown ++ place)
  | .missingType property => s!"No type information available for property '{property}'"
  | .unionMember property cause =>
    let owner := match property.filter fun s => !s.isEmpty with
      | some name => s!"property '{name}'"
      | none => "a top-level type"
    s!"Failed to classify a union member of {owner}: {cause.message}"
  | .slotFilled index => s!"Reference slot {index} was already filled"
  | .noSlot => "No such reference slot"
  | .unfinished slots =>
    "Reference slots never completed: [" ++ ", ".intercalate (slots.map toString) ++ "]"
  | .dangling ⟨index, size⟩ => s!"Reference index {index} out of range for {size} refs"
  | .unwritable => Numeral.unwritableText
  | .tooDeep => "maximum recursion depth exceeded"

/-- Failures of a type, as opposed to those of the table. -/
def isClassification : PassFault → Bool
  | .unclassifiable _ _ _ => true
  | .missingType _ => true
  | .unionMember _ _ => true
  | _ => false

/-- The failure of a union member: told with its owner once, at the innermost union. -/
def inUnion (owner : Option String) : PassFault → PassFault
  | .unclassifiable text symbol location =>
    .unionMember owner (.unclassifiable text symbol location)
  | .missingType property => .unionMember owner (.missingType property)
  | fault => fault

end PassFault

/-- What a pass reports about its course. -/
inductive Note where
  /-- An alias that is met while it is resolved stands for itself. -/
  | leftUnresolved (name : String)
  | reserved (slot : Nat) (type : String)
  | fellBack (type : String)
  | noProps (component : String)
  | found (component : String) (slot : Nat)
  deriving DecidableEq

def Note.message : Note → String
  | .leftUnresolved name => s!"Recursive alias {name} left unresolved"
  | .reserved slot type => s!"Reserved ref {slot} for {type}"
  | .fellBack type => s!"Falling back to any for {type}"
  | .noProps component => s!"Component {component} binds no props type; skipping"
  | .found component slot => s!"Found component {component} with props ref {slot}"

structure Context where
  slots : List (Option RecordSpec)
  /-- The latest entry of a type counts. -/
  memo : List (TypeIdentity × Nat)
  /-- The names of the members being classified, the innermost first. -/
  owners : List String
  /-- Notes, the latest first. -/
  notes : List Note
  deriving Inhabited

/-- A step of a pass, which changes the context also when it fails. -/
abbrev Pass := ExceptT PassFault (StateM Context)

namespace Context

def fresh : Context := ⟨[], [], [], []⟩

def lookup (c : Context) (identity : TypeIdentity) : Option Nat := c.memo.lookup identity

/-- The context with one more slot, known under an identity. -/
def reserve (c : Context) (identity : TypeIdentity) : Nat × Context :=
  (c.slots.length,
    { c with slots := c.slots ++ [none], memo := (identity, c.slots.length) :: c.memo })

/-- The place of a slot; negative indices count from the end. -/
def place? (c : Context) (index : Int) : Option Nat :=
  let size : Int := c.slots.length
  if 0 ≤ index ∧ index < size then some index.toNat
  else if index < 0 ∧ -size ≤ index then some (index + size).toNat
  else none

/-- The context with a slot filled, which must have been empty. -/
def patch (c : Context) (index : Int) (record : RecordSpec) : Except PassFault Context :=
  match c.place? index with
  | none => .error .noSlot
  | some i =>
    match c.slots[i]? with
    | some none => .ok { c with slots := c.slots.set i (some record) }
    | _ => .error (.slotFilled index)

def slot (c : Context) (index : Int) : Except PassFault (Option RecordSpec) :=
  match c.place? index with
  | none => .error .noSlot
  | some i => .ok (c.slots.getD i none)

def owner? (c : Context) : Option String := c.owners.head?

/-- The slots that were reserved and never filled. -/
def unfinished (c : Context) : List Nat :=
  (List.range c.slots.length).filter fun i => (c.slots.getD i none).isNone

/-- The outcome of the pass, which needs every slot filled and every index in the table. -/
def result (c : Context) (components : List ComponentSpec) : Except PassFault Extraction :=
  match c.unfinished with
  | [] =>
    let x : Extraction := ⟨components, c.slots.filterMap id⟩
    match x.dangling? with
    | some index => .error (.dangling index)
    | none => .ok x
  | slots => .error (.unfinished slots)

end Context

namespace Pass

def note (n : Note) : Pass Unit := modify fun c => { c with notes := n :: c.notes }

/-- A text that is needed for a report. -/
def written : Option String → Pass String
  | some text => pure text
  | none => throw .unwritable

def reserve (identity : TypeIdentity) : Pass Nat := modifyGet fun c => c.reserve identity

def patch (index : Int) (record : RecordSpec) : Pass Unit := do
  match (← get).patch index record with
  | .ok c => set c
  | .error fault => throw fault

/-- A step with a member's name on top of the owners, which is taken off whatever happens. -/
def within {α : Type} (name : String) (step : Pass α) : Pass α := fun c =>
  let (outcome, after) := step.run { c with owners := name :: c.owners }
  (outcome, { after with owners := after.owners.tail })

/-- A step for a member of a union, whose failure names the current owner. -/
def unionMember {α : Type} (step : Pass α) : Pass α := fun c =>
  match step.run c with
  | (.error fault, after) => (.error (fault.inUnion after.owner?), after)
  | done => done

end Pass

end PropSchema
