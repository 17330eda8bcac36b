import PropSchema.Glob
import PropSchema.Text
/-!
Patterns of paths to leave out. A pattern with a slash is held against a whole relative path, and
leaves out all below a path that it spells; one without is held against each part of a path.
-/
namespace PropSchema

/-- A pattern without the slashes at its ends. -/
structure Exclusion where
  pattern : String
  directoryOnly : Bool
  hasSlash : Bool
  deriving DecidableEq, Inhabited

namespace Exclusion

/-- The exclusion that a pattern stands for, none if nothing but slashes is left of it. -/
def ofPattern? (pattern : String) : Option Exclusion :=
  let start := (Text.trimChars pattern.toList).dropWhile (· == '/')
  let body := Text.dropRightWhile (· == '/') start
  if body.isEmpty then none
  else some ⟨String.ofList body, body.length < start.length, body.contains '/'⟩

def ofPatterns (patterns : List String) : List Exclusion := patterns.filterMap ofPattern?

/-- Whether a path relative to the root is left out. -/
def isMatch (e : Exclusion) (path : String) (isDirectory : Bool) : Bool :=
  if e.directoryOnly && !isDirectory then false
  else if e.hasSlash then
    Glob.isMatch e.pattern path || (e.pattern ++ "/").toList.isPrefixOf path.toList
  else (Text.split '/' path.toList).any fun part => Glob.isMatch e.pattern (String.ofList part)

/-- Whether any of several exclusions leaves a path out. -/
def excludes (rules : List Exclusion) (path : String) (isDirectory : Bool) : Bool :=
  rules.any fun e => e.isMatch path isDirectory

end Exclusion

end PropSchema
