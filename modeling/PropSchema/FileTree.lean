import PropSchema.Entries
import PropSchema.Path
/-!
Trees of files. The entries of a directory are in no particular order, and their names differ.
-/
namespace PropSchema

inductive FileTree where
  | file (bytes : List UInt8)
  | directory (entries : List (String × FileTree))
  deriving Inhabited

namespace FileTree

def empty : FileTree := .directory []

def isDirectory : FileTree → Bool
  | .directory _ => true
  | .file _ => false

/-- The entry of a name; a file has none. -/
def entry? (name : String) : FileTree → Option FileTree
  | .directory entries => entries.lookup name
  | .file _ => none

/-- The tree at a place. -/
def find? : Place → FileTree → Option FileTree
  | [], t => some t
  | name :: rest, t => (t.entry? name).bind (find? rest)

def entries : FileTree → List (String × FileTree)
  | .directory entries => entries
  | .file _ => []

/-- The tree with another one put at a place, in directories that are made where they are missing. -/
def put : FileTree → Place → FileTree → FileTree
  | _, [], node => node
  | t, name :: rest, node =>
    .directory (Entries.put name (((t.entry? name).getD empty).put rest node) t.entries)

/-- The tree without what is at a place. -/
def erase : FileTree → Place → FileTree
  | _, [] => empty
  | t, [name] => .directory (Entries.erase name t.entries)
  | t, name :: rest =>
    match t.entry? name with
    | some inner => .directory (Entries.put name (inner.erase rest) t.entries)
    | none => t

theorem find?_put_self (t : FileTree) (place : Place) (node : FileTree) :
    (t.put place node).find? place = some node := by
  induction place generalizing t with
  | nil => rfl
  | cons name rest ih => simp [put, find?, entry?, Entries.lookup_put_self, ih]

end FileTree

end PropSchema
