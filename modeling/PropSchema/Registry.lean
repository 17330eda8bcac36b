import PropSchema.Entries
import PropSchema.Schema
/-!
Known symbols: fully qualified names of framework types whose structure is not looked into. Users
add names of their own, mapped to variants without payload.
-/
namespace PropSchema

/-- Names and their schemas; the first entry of a name counts. -/
abbrev Registry := List (String × PropType)

/-- A kind that names no variant without payload. -/
structure UnknownKind where
  kind : String
  deriving DecidableEq

def UnknownKind.message (e : UnknownKind) : String :=
  s!"'{e.kind}' is not a payload-free prop type kind"

/-- The variant without payload that a kind names. -/
def PropType.ofKind (kind : String) : Except UnknownKind PropType :=
  match PropType.simple.lookup kind with
  | some t => .ok t
  | none => .error ⟨kind⟩

namespace Registry

def eventNames : List String :=
  ["SyntheticEvent", "BaseSyntheticEvent", "AnimationEvent", "ChangeEvent", "ClipboardEvent",
   "CompositionEvent", "DragEvent", "FocusEvent", "FormEvent", "KeyboardEvent", "MouseEvent",
   "PointerEvent", "TouchEvent", "TransitionEvent", "UIEvent", "WheelEvent"]

def builtin : Registry :=
  eventNames.map (fun name => ("React." ++ name, .event)) ++
    [("React.ReactElement", .reactElement), ("JSX.Element", .reactElement),
     ("React.JSX.Element", .reactElement), ("React.ReactNode", .reactNode),
     ("React.ReactChild", .reactNode), ("React.ReactFragment", .reactNode)]

/-- The built-in names with further names and kinds on top. -/
def extend (extra : List (String × String)) : Except UnknownKind Registry :=
  extra.foldlM (fun registry (name, kind) => do
    pure (Entries.put name (← PropType.ofKind kind) registry)) builtin

/-- The schema of a symbol; types without symbol are never known. -/
def find? (registry : Registry) (symbol : Option String) : Option PropType := do
  registry.lookup (← symbol)

end Registry

end PropSchema
