import PropSchema.Settings
import PropSchema.Text.Utf8
import PropSchema.Workspace
import PropSchema.Yaml.Display
/-!
The file of settings. What a setting cannot be read from is passed over where it may be missing,
and refused where it would change what is found.
-/
namespace PropSchema

/-- Why a file of settings is refused. -/
inductive SettingsFault where
  | unreadable (error : FileError)
  | malformed (file : String)
  | noMapping
  | unknownPolicy (name : String)
  | noMarkers
  | unknownKind (symbol kind : String)
  deriving DecidableEq

namespace Settings

/-- The name of the file in its directory. -/
def fileName : String := ".propscan.yml"

def allowed (names : List String) : String := " (expected one of: " ++ ", ".intercalate names ++ ")"

end Settings

def SettingsFault.message : SettingsFault → String
  | .unreadable e => "Cannot read " ++ e.path.text ++ ": " ++ e.message
  | .malformed file => "Failed to parse " ++ file ++ ": " ++ Yaml.Fault.message .malformed
  | .noMapping => Settings.fileName ++ " must contain a mapping at the root"
  | .unknownPolicy name =>
    s!"Unknown error_policy '{name}'" ++ Settings.allowed (ErrorPolicy.all.map ErrorPolicy.name)
  | .noMarkers => "component_markers must name at least one base type"
  | .unknownKind symbol kind =>
    s!"known_symbols entry '{symbol}' has unknown kind '{kind}'" ++
      Settings.allowed (PropType.simple.map Prod.fst)

/--
Why settings cannot be loaded: they are refused, or their file cannot be read as values, or a value in
it cannot be written, or the path of the file has a null byte.
-/
inductive LoadFault where
  | refused (fault : SettingsFault)
  | notText (fault : Utf8.Fault)
  | noValue (fault : Yaml.Fault)
  | nullByte
  deriving DecidableEq

def LoadFault.message : LoadFault → String
  | .refused fault => fault.message
  | .notText fault => fault.message
  | .noValue fault => fault.message
  | .nullByte => Obstacle.nullText

namespace Settings

open Yaml

/-- The text of a value as a message or a name shows it. -/
def shown (v : Value) : Except LoadFault String := v.written.mapError .noValue

/-- The text of a text, number or truth value. -/
def text? (v : Value) : Except LoadFault (Option String) :=
  match v with
  | .str _ | .int _ | .float _ | .bool _ => do pure (some (← shown v))
  | _ => pure none

/-- The text of a setting that may be missing. -/
def textOf : Option Value → Except LoadFault (Option String)
  | some v => text? v
  | none => pure none

/-- The texts of a list, or of a text alone; what has no text is passed over. -/
def textsOf : Option Value → Except LoadFault (List String)
  | some (.str s) => pure [s]
  | some (.seq items) => do pure ((← items.mapM text?).filterMap id)
  | some (.bytes bytes) => pure (bytes.map fun b => toString b.toNat)
  | _ => pure []

/-- A truth value, also by one of its words. -/
def truthOf : Option Value → Option Bool
  | some (.bool b) => some b
  | some (.str s) =>
    let word := Text.lower (Text.trim s)
    if ["true", "yes", "1"].contains word then some true
    else if ["false", "no", "0"].contains word then some false
    else none
  | _ => none

def entriesOf : Option Value → List (Value × Value)
  | some (.map entries) => entries
  | _ => []

def policyOf (v : Option Value) : Except LoadFault ErrorPolicy := do
  match ← textOf v with
  | none => pure default.policy
  | some name =>
    match ErrorPolicy.ofName? (Text.lower name) with
    | some policy => pure policy
    | none => throw (.refused (.unknownPolicy name))

/-- The markers, of which one at least is needed if they are given at all. -/
def markersOf : Option Value → Except LoadFault (List String)
  | none => pure default.markers
  | some v => do
    match ← textsOf (some v) with
    | [] => throw (.refused .noMarkers)
    | markers => pure markers

/-- The kind of a symbol, which must be one without payload. -/
def kindOf (symbol kind : Value) : Except LoadFault (String × String) := do
  match (← text? kind).filter fun k => (PropType.simple.lookup k).isSome with
  | some k => pure (← shown symbol, k)
  | none => throw (.refused (.unknownKind (← shown symbol) (← shown kind)))

def knownOf (v : Option Value) : Except LoadFault (List (String × String)) := do
  pure (Entries.ofPairs (← (entriesOf v).mapM fun (symbol, kind) => kindOf symbol kind))

def cacheOf (v : Option Value) : Except LoadFault CacheSettings :=
  match v with
  | some (.map []) => pure .default
  | some (.map entries) => do
    let path ← textOf ((Value.map entries).field? "path")
    pure {
      enabled := (truthOf ((Value.map entries).field? "enabled")).getD CacheSettings.default.enabled
      path := (path.filter fun p => !p.isEmpty).getD CacheSettings.default.path }
  | _ => pure .default

/-- The settings of a mapping. -/
def ofMapping (v : Value) : Except LoadFault Settings := do
  let policy ← policyOf (v.field? "error_policy")
  let markers ← markersOf (v.field? "component_markers")
  let known ← knownOf (v.field? "known_symbols")
  let excluded ← textsOf (v.field? "exclude_paths")
  let cache ← cacheOf (v.field? "cache")
  pure ⟨policy, markers, known, excluded, cache⟩

/-- The settings of a value; nothing at all stands for the default settings. -/
def ofValue : Value → Except LoadFault Settings
  | .null => pure default
  | .map entries => ofMapping (.map entries)
  | _ => throw (.refused .noMapping)

/-- The settings of a text, which comes from a file of some name. -/
def ofText (file text : String) : Except LoadFault Settings :=
  if (Text.trimChars text.toList).isEmpty then .ok default
  else
    match Value.ofText text.toList with
    | .error .malformed => .error (.refused (.malformed file))
    | .error fault => .error (.noValue fault)
    | .ok v => ofValue v

def ofBytes (file : String) (bytes : List UInt8) : Except LoadFault Settings :=
  match Utf8.readText bytes with
  | .ok text => ofText file text
  | .error fault => .error (.notText fault)

/-- The place of the file of settings: of the path itself, or in the directory that it leads to. -/
def filePlace (w : Workspace) (p : Path) : Place :=
  if w.isDirectory p then w.resolve p ++ [fileName] else w.resolve p

/-- The settings that a path leads to, with the directory that their paths begin in. -/
def load (w : Workspace) (p : Path) : Except LoadFault (Place × Settings) :=
  let place := filePlace w p
  let file := place.getLast?.getD ""
  if p.hasNull then .error .nullByte
  else match w.read (.ofPlace place) with
  | .ok bytes => do pure (place.dropLast, ← ofBytes file bytes)
  | .error ⟨.isDirectory, path⟩ => .error (.refused (.unreadable ⟨.isDirectory, path⟩))
  | .error _ => .ok (place.dropLast, default)

end Settings

end PropSchema
