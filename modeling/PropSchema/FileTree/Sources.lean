import PropSchema.Exclusion
import PropSchema.FileTree
/-!
The source files of a directory. A directory's own files come first and its subdirectories follow,
both by name; what is excluded is left out with all below it.
-/
namespace PropSchema.FileTree

/-- Directories that are never looked into. -/
def skippedNames : List String :=
  [".git", ".hg", ".svn", ".venv", "node_modules", "__pycache__", ".propscan"]

/-- The ends of the names of source files. -/
def suffixes : List String := [".ts", ".tsx", ".mts", ".cts"]

def hasSuffix (name suffix : String) : Bool := suffix.toList.isSuffixOf name.toList

def isSourceName (name : String) : Bool := suffixes.any (hasSuffix name)

def shownPlace (parts : List String) : String := "/".intercalate parts

/-- Whether a file is wanted, given its place relative to the directory that is walked. -/
def wantsFile (rules : List Exclusion) (parts : List String) (name : String) : Bool :=
  isSourceName name && !Exclusion.excludes rules (shownPlace parts) false

/-- Whether a directory is looked into, given its place relative to the one that is walked. -/
def wantsDirectory (rules : List Exclusion) (parts : List String) (name : String) : Bool :=
  !skippedNames.contains name && !Exclusion.excludes rules (shownPlace parts) true

/-- What an entry of a directory gives. -/
structure Yield where
  name : String
  isDirectory : Bool
  files : List (List String)

/-- What several entries give: files before directories, either by name. -/
def ordered (yields : List Yield) : List (List String) :=
  let sorted := yields.mergeSort fun a b => Text.le a.name b.name
  (sorted.filter fun y => !y.isDirectory).flatMap Yield.files ++
    (sorted.filter fun y => y.isDirectory).flatMap Yield.files

mutual

/-- The source files below a tree that is at some parts below the directory that is walked. -/
def sourcesBelow (rules : List Exclusion) (above : List String) : FileTree → List (List String)
  | .file _ => []
  | .directory entries => ordered (yieldsBelow rules above entries)

def yieldsBelow (rules : List Exclusion) (above : List String) :
    List (String × FileTree) → List Yield
  | [] => []
  | (name, t) :: rest =>
    let parts := above ++ [name]
    let files :=
      if t.isDirectory then
        if wantsDirectory rules parts name then sourcesBelow rules parts t else []
      else if wantsFile rules parts name then [parts] else []
    ⟨name, t.isDirectory, files⟩ :: yieldsBelow rules above rest

end

/-- The source files of a directory, each by the parts that lead to it. -/
def sources (rules : List Exclusion) (t : FileTree) : List (List String) := sourcesBelow rules [] t

end PropSchema.FileTree
