import PropSchema.Components
import PropSchema.Json.Printer
import PropSchema.Sha256
import PropSchema.Text
/-!
The settings of an extraction: what counts as a component, what is known of symbols, what happens
to types that no rule fits, which paths are left out, and where results are kept.
-/
namespace PropSchema

structure CacheSettings where
  enabled : Bool
  path : String
  deriving DecidableEq, Inhabited

def CacheSettings.default : CacheSettings := ⟨true, ".propscan/cache.json"⟩

structure Settings where
  policy : ErrorPolicy
  markers : List String
  /-- Names of symbols with the kinds of schema that they stand for. -/
  known : List (String × String)
  /-- Patterns of paths that are left out. -/
  excluded : List String
  cache : CacheSettings
  deriving DecidableEq, Inhabited

namespace Settings

def default : Settings := ⟨.lenient, Components.defaultMarkers, [], [], .default⟩

/-- The rules that components are found by. -/
def rules (s : Settings) : Except UnknownKind ComponentRules := do
  pure { registry := ← Registry.extend s.known, policy := s.policy, markers := s.markers }

/-- The settings that change outcomes, in an order that does not depend on how they are listed. -/
def essence (s : Settings) : Json :=
  .obj [("error_policy", .str s.policy.name),
    ("component_markers", .arr ((Text.sort s.markers).map .str)),
    ("known_symbols", .obj (Entries.ofPairs (s.known.map fun (name, kind) => (name, .str kind))))]

/-- A digest of all settings that change outcomes. -/
def signature (s : Settings) : String := Sha256.ofText (s.essence.sorted.text none)

end Settings

end PropSchema
