import PropSchema.CommandLine
import PropSchema.Instant
import Std.Time.DateTime
/-!
The program. The files that an invocation may touch are loaded, the invocation is run on them, and
the files that it changed are written.
-/
namespace PropSchema.Program

/-- The absolute text of a place. -/
def textOf (place : Place) : String := (Path.ofPlace place).text

def isDirectory (place : Place) : IO Bool := do
  try (← IO.FS.realPath (textOf place)).isDir catch _ => pure false

/-- The file at a place, none if it cannot be read. -/
def readFile? (place : Place) : IO (Option FileTree) := do
  try pure (some (.file (← IO.FS.readBinFile (textOf place)).toList)) catch _ => pure none

/-- The source files of a directory and below it. -/
partial def readTree (place : Place) : IO FileTree := do
  let mut entries := []
  for entry in ← (← IO.FS.realPath (textOf place)).readDir do
    let name := entry.fileName
    let inner := place ++ [name]
    if ← isDirectory inner then
      if !FileTree.skippedNames.contains name then
        entries := (name, ← readTree inner) :: entries
    else if FileTree.isSourceName name then
      if let some file ← readFile? inner then
        entries := (name, file) :: entries
  pure (.directory entries)

/-- The workspace with a directory at a place, unless there is one. -/
def withDirectory (w : Workspace) (place : Place) : Workspace :=
  if (w.tree.find? place).any FileTree.isDirectory then w
  else { w with tree := w.tree.put place .empty }

/-- The workspace with what a path leads to; directories are loaded with all below them if deep. -/
def load (w : Workspace) (p : Path) (deep : Bool) : IO Workspace := do
  let mut w := w
  for n in [0 : p.parts.length] do
    let place := w.resolve { p with parts := p.parts.take n }
    if ← isDirectory place then
      w := withDirectory w place
  let place := w.resolve p
  if ← isDirectory place then
    if deep then
      pure { w with tree := w.tree.put place (← readTree place) }
    else pure (withDirectory w place)
  else
    match ← readFile? place with
    | some file => pure { w with tree := w.tree.put place file }
    | none => pure w

/-- The workspace with the cache and those files that its keys name. -/
def loadCache (w : Workspace) (config : Path) : IO Workspace := do
  match Settings.load w config with
  | .error _ => pure w
  | .ok (root, settings) =>
    let path := Scanner.cachePath root settings
    let mut w ← load w path false
    if let .ok (cache, _) := ResultCache.load w path then
      for key in cache.keys do
        let file := (Path.ofPlace root).join (.ofText key)
        if !w.isFile file then
          w ← load w file false
    pure w

/-- The workspace with all that an invocation may read. -/
def loadFor (w : Workspace) : Command → IO Workspace
  | .check result => load w result false
  | .scan paths output _ config _ => do
    let mut w := w
    for p in paths do
      if ← isDirectory (w.resolve p) then
        w ← load w p true
    for p in paths do
      if !(← isDirectory (w.resolve p)) then
        w ← load w p false
    w ← load w config false
    w ← load w (.ofPlace (Settings.filePlace w config)) false
    if let some p := output then
      w ← load w p false
    loadCache w config

/-- Writes a file of the workspace if it is not as it was. -/
def write (before after : Workspace) (p : Path) : IO Unit := do
  match after.read p, before.read p with
  | .error _, _ => pure ()
  | .ok bytes, old =>
    if !(old.toOption == some bytes) then
      let place := after.resolve p
      IO.FS.createDirAll (textOf place.dropLast)
      IO.FS.writeBinFile (textOf place) (ByteArray.mk bytes.toArray)

/-- Writes the files that an invocation may have changed. -/
def writeFor (before after : Workspace) : Command → IO Unit
  | .check _ => pure ()
  | .scan _ output _ config _ => do
    if let .ok (root, settings) := Settings.load before config then
      write before after (Scanner.cachePath root settings)
    if let some p := output then
      write before after p

def usage : String :=
  "usage: propscan [-h] [-v] \x7bscan,check\x7d ...\n" ++
  "  scan [-v] [-o OUTPUT] [--strict] [--config CONFIG] [--no-cache] paths [paths ...]\n" ++
  "  check [-v] result\n"

def messageOf : Breakdown → String
  | .notStarted _ => usage
  | .settings fault => fault.message ++ "\n"
  | .scanner (.unknownKind kind) => kind.message ++ "\n"
  | .scanner (.cache fault) => fault.message ++ "\n"
  | .scan fault => fault.message ++ "\n"
  | .notWritten e => e.message ++ "\n"
  | .unwritable => Numeral.unwritableText ++ "\n"

/-- Runs an invocation on the files that it needs. -/
def runInvocation (i : Invocation) : IO UInt32 := do
  let workDir := (Path.ofText (← IO.currentDir).toString).parts
  let start : Workspace := ⟨FileTree.empty.put workDir .empty, workDir⟩
  let before ← loadFor start i.command
  let now ← Std.Time.Timestamp.now
  let stamp := Instant.text (now.toNanosecondsSinceUnixEpoch.val.toNat / 1000)
  match CommandLine.runInvocation stamp before i with
  | .error breakdown =>
    IO.eprint (messageOf breakdown)
    pure 1
  | .ok run =>
    writeFor before run.workspace i.command
    IO.eprint run.errors
    IO.print run.output
    pure run.code.toUInt32

end PropSchema.Program

def main (args : List String) : IO UInt32 := do
  match PropSchema.Invocation.ofArguments args with
  | .error .help =>
    IO.print PropSchema.Program.usage
    pure 0
  | .error .usage =>
    IO.eprint PropSchema.Program.usage
    pure 2
  | .ok i => PropSchema.Program.runInvocation i
