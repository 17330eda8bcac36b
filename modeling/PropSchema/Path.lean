import PropSchema.Text
/-!
Paths as they are spelled. Empty parts and single dots say nothing and are dropped; double dots are
kept, for what they lead to depends on the files. A place is the list of names that leads from the
top of all files to one of them.
-/
namespace PropSchema

/-- The names from the top directory down. -/
abbrev Place := List String

structure Path where
  /-- The slashes in front; there are none if the path begins in the working directory. -/
  root : String
  parts : List String
  deriving DecidableEq, Inhabited

namespace Path

/-- One slash in front, unless there are exactly two. -/
def rootOf (cs : List Char) : String :=
  match (cs.takeWhile (· == '/')).length with
  | 0 => ""
  | 2 => "//"
  | _ => "/"

def ofText (text : String) : Path :=
  ⟨rootOf text.toList, ((Text.split '/' text.toList).filter fun part =>
    !part.isEmpty && part != ['.']).map String.ofList⟩

/-- The working directory. -/
def here : Path := ⟨"", []⟩

def ofPlace (place : Place) : Path := ⟨"/", place⟩

def text (p : Path) : String :=
  if p.root.isEmpty && p.parts.isEmpty then "." else p.root ++ "/".intercalate p.parts

/-- A path within a directory; a path with a root of its own stays as it is. -/
def join (p q : Path) : Path := if q.root.isEmpty then { p with parts := p.parts ++ q.parts } else q

/-- The directory that a path is in. -/
def parent (p : Path) : Path := { p with parts := p.parts.dropLast }

/-- Whether a part has the character that ends names for the system, which takes no such path. -/
def hasNull (p : Path) : Bool := p.parts.any fun part => part.toList.contains '\x00'

/-- One part further: double dots lead up, and from the top nowhere. -/
def step (place : Place) (part : String) : Place :=
  if part == ".." then place.dropLast else place ++ [part]

/-- The place of a path by its spelling alone. -/
def resolve (workDir : Place) (p : Path) : Place :=
  p.parts.foldl step (if p.root.isEmpty then workDir else [])

/-- The parts of a list behind another one that it begins with. -/
def below? : List String → List String → Option (List String)
  | [], parts => some parts
  | name :: names, part :: parts => if name == part then below? names parts else none
  | _ :: _, [] => none

/-- The text of a place: relative to a directory if the place is in it. -/
def shown (directory place : Place) : String :=
  match below? directory place with
  | some parts => text ⟨"", parts⟩
  | none => text (ofPlace place)

end Path

end PropSchema
