import PropSchema.FileTree
import PropSchema.Text.Quoted
/-!
The files that a run sees, with the directory that it works in. Looking up a path follows its parts
one by one, so every directory on the way has to be there, also those that double dots leave. A path
with a null byte leads nowhere, which is told apart from a path without file.
-/
namespace PropSchema

/-- Why nothing can be done with a path. -/
inductive Obstacle where
  | missing
  | notDirectory
  | isDirectory
  | alreadyThere
  | nullByte
  deriving DecidableEq

structure FileError where
  obstacle : Obstacle
  path : Path
  deriving DecidableEq

/-- The number and the text that the system has for an obstacle; a null byte never gets so far. -/
def Obstacle.described? : Obstacle → Option (Nat × String)
  | .missing => some (2, "No such file or directory")
  | .notDirectory => some (20, "Not a directory")
  | .isDirectory => some (21, "Is a directory")
  | .alreadyThere => some (17, "File exists")
  | .nullByte => none

def Obstacle.nullText : String := "embedded null byte"

def FileError.message (e : FileError) : String :=
  match e.obstacle.described? with
  | some (number, text) => s!"[Errno {number}] {text}: " ++ Text.quoted e.path.text
  | none => Obstacle.nullText

namespace FileTree

/-- The place that parts lead to from a directory. -/
def follow (t : FileTree) : List String → Place → Except Obstacle Place
  | [], place => .ok place
  | part :: rest, place =>
    match t.find? place with
    | none => .error .missing
    | some (.file _) => .error .notDirectory
    | some (.directory _) =>
      if part == ".." || (t.find? (place ++ [part])).isSome then
        t.follow rest (Path.step place part)
      else .error .missing

/-- The tree with directories made where parts lead, unless a file stands in the way. -/
def makeDirectories : List String → Place → FileTree → Except Obstacle FileTree
  | [], place, t => if (t.find? place).any FileTree.isDirectory then .ok t else .error .alreadyThere
  | part :: rest, place, t =>
    match t.find? place with
    | none => .error .missing
    | some (.file _) => .error .notDirectory
    | some (.directory _) =>
      if part == ".." || (t.find? (place ++ [part])).isSome then
        makeDirectories rest (Path.step place part) t
      else makeDirectories rest (place ++ [part]) (t.put (place ++ [part]) .empty)

end FileTree

structure Workspace where
  tree : FileTree
  workDir : Place
  deriving Inhabited

namespace Workspace

def start (w : Workspace) (p : Path) : Place := if p.root.isEmpty then w.workDir else []

/-- The place and the tree that a path leads to. -/
def locate (w : Workspace) (p : Path) : Except Obstacle (Place × FileTree) :=
  if p.hasNull then .error .nullByte
  else do
    let place ← w.tree.follow p.parts (w.start p)
    match w.tree.find? place with
    | some t => pure (place, t)
    | none => throw .missing

def isDirectory (w : Workspace) (p : Path) : Bool :=
  match w.locate p with
  | .ok (_, t) => t.isDirectory
  | .error _ => false

def isFile (w : Workspace) (p : Path) : Bool :=
  match w.locate p with
  | .ok (_, t) => !t.isDirectory
  | .error _ => false

/-- The bytes of a file. -/
def read (w : Workspace) (p : Path) : Except FileError (List UInt8) :=
  match w.locate p with
  | .ok (_, .file bytes) => .ok bytes
  | .ok (_, .directory _) => .error ⟨.isDirectory, p⟩
  | .error obstacle => .error ⟨obstacle, p⟩

/-- The place of a path by its spelling alone. -/
def resolve (w : Workspace) (p : Path) : Place := p.resolve w.workDir

def makeDirectories (w : Workspace) (p : Path) : Except FileError Workspace :=
  if p.hasNull then .error ⟨.nullByte, p⟩
  else match w.tree.makeDirectories p.parts (w.start p) with
  | .ok tree => .ok { w with tree }
  | .error obstacle => .error ⟨obstacle, p⟩

/-- A file with new contents, in a directory that has to be there. -/
def write (w : Workspace) (p : Path) (bytes : List UInt8) : Except FileError Workspace :=
  if p.hasNull then .error ⟨.nullByte, p⟩
  else match w.locate p.parent, w.locate p with
  | .error obstacle, _ => .error ⟨obstacle, p⟩
  | .ok (_, .file _), _ => .error ⟨.notDirectory, p⟩
  | .ok _, .ok (_, .directory _) => .error ⟨.isDirectory, p⟩
  | .ok _, .ok (place, .file _) => .ok { w with tree := w.tree.put place (.file bytes) }
  | .ok (directory, .directory _), .error _ =>
    match p.parts.getLast? with
    | some name => .ok { w with tree := w.tree.put (directory ++ [name]) (.file bytes) }
    | none => .error ⟨.isDirectory, p⟩

/-- A file with new contents, in a directory that is made if it is missing. -/
def save (w : Workspace) (p : Path) (bytes : List UInt8) : Except FileError Workspace := do
  (← w.makeDirectories p.parent).write p bytes

/-- The workspace without what is at a path. -/
def delete (w : Workspace) (p : Path) : Workspace :=
  match w.locate p with
  | .ok (place, _) => { w with tree := w.tree.erase place }
  | .error _ => w

end Workspace

end PropSchema
