import PropSchema.Components
import PropSchema.TypeScript.Exports
/-!
The extraction of one source: its text is read, its exported classes are resolved, and the
components among them are classified.
-/
namespace PropSchema

/-- The outcome of a scan, with the notes of its course. -/
structure Scan where
  outcome : Except PassFault Extraction
  notes : List Note

namespace Scan

/-- The scan of a source that has been read. -/
def ofSource (rules : ComponentRules) (src : TypeScript.Source) : Scan :=
  match src.exportedClasses.run .initial with
  | none => ⟨.error .tooDeep, []⟩
  | some (classes, r) =>
    let (outcome, context) := (Components.find rules r.graph classes).run .fresh
    ⟨outcome, r.recursive.reverse.map .leftUnresolved ++ context.notes.reverse⟩

/-- The scan of a text, which stands for a file of the given path. -/
def ofText (rules : ComponentRules) (path text : String) : Scan := ofSource rules (.ofText path text)

end Scan

end PropSchema
