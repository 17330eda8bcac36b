import PropSchema.CommandLine.Arguments
import PropSchema.Project
import PropSchema.Settings.File
/-!
What the commands do. A scan prints the merged outcome of some files or writes it to a file; a
check reads such a file and tells whether it is of the wire form.
-/
namespace PropSchema

/-- What a run leaves: its exit code, what it prints and reports, and the files after it. -/
structure Run where
  code : Nat
  output : String
  errors : String
  workspace : Workspace
  deriving Inhabited

/-- Why a run breaks off without an exit code of its own. -/
inductive Breakdown where
  | notStarted (refusal : Refusal)
  | settings (fault : LoadFault)
  | scanner (fault : ScannerFault)
  | scan (fault : ScanFault)
  | notWritten (error : FileError)
  /-- The outcome has an integer of too many digits. -/
  | unwritable

namespace CommandLine

/-- A place as users see it: relative to the working directory, if it is in it. -/
def shown (w : Workspace) (p : Path) : String :=
  match (if p.hasNull then none else Path.below? w.workDir (w.resolve p)) with
  | some parts => Path.text ⟨"", parts⟩
  | none => p.text

/-- A run that ends with a message. -/
def failure (w : Workspace) (errors message : String) : Run := ⟨1, "", errors ++ message ++ "\n", w⟩

/-- The message of a failed scan; other faults break the run off. -/
def failureMessage? : ScanFault → Option String
  | .failed fault => if fault.isClassification then some ("propscan scan failed: " ++ fault.message) else none
  | .nullByte => none
  | .notWritten _ => none
  | fault => some fault.message

/-- The run of a scan that has been started. -/
def scanWith (verbose : Bool) (scanner : Scanner) (session : Session) (paths : List Path)
    (output : Option Path) : Except Breakdown Run := do
  let (outcome, after) := (scanner.scan paths).run session
  let w := after.workspace
  match outcome with
  | .error fault =>
    match failureMessage? fault with
    | some message => pure (failure w (Report.lines verbose after.reports.reverse) message)
    | none => throw (.scan fault)
  | .ok x =>
    match (Wire.ofExtraction x).render (some 2), output with
    | none, _ => throw .unwritable
    | some text, none =>
      pure ⟨0, text ++ "\n", Report.lines verbose after.reports.reverse, w⟩
    | some text, some p =>
      match w.save p (text ++ "\n").toUTF8.toList with
      | .error e => throw (.notWritten e)
      | .ok w =>
        let wrote := Report.wrote x.components.length (shown w p)
        pure ⟨0, "", Report.lines verbose (after.reports.reverse ++ [wrote]), w⟩

def scan (stamp : String) (w : Workspace) (verbose : Bool) (paths : List Path)
    (output : Option Path) (strict : Bool) (config : Path) (useCache : Bool) :
    Except Breakdown Run :=
  match Settings.load w config with
  | .error (.refused fault) => .ok (failure w "" ("Invalid configuration: " ++ fault.message))
  | .error fault => .error (.settings fault)
  | .ok (root, settings) =>
    let settings := if strict then { settings with policy := .strict } else settings
    match Scanner.start w stamp root settings useCache with
    | .error fault => .error (.scanner fault)
    | .ok (scanner, session) => scanWith verbose scanner session paths output

/-- What makes the text of a file no outcome. -/
def invalidity? (bytes : List UInt8) : Except String Extraction :=
  match Utf8.readText bytes with
  | .error fault => .error fault.message
  | .ok text =>
    match Json.read text with
    | .error e => .error (e.message text.toList)
    | .ok value =>
      match Wire.toExtraction value with
      | .error fault => .error fault.message
      | .ok x => .ok x

def check (w : Workspace) (result : Path) : Run :=
  match w.read result with
  | .error ⟨.nullByte, _⟩ =>
    failure w "" (shown w result ++ " is not a valid result: " ++ Obstacle.nullText)
  | .error e => failure w "" ("Cannot read " ++ result.text ++ ": " ++ e.message)
  | .ok bytes =>
    match invalidity? bytes with
    | .error message => failure w "" (shown w result ++ " is not a valid result: " ++ message)
    | .ok x =>
      ⟨0, shown w result ++ s!": {x.components.length} component(s), {x.refs.length} ref(s)\n",
        "", w⟩

/-- The run of an invocation; new cache entries bear the stamp. -/
def runInvocation (stamp : String) (w : Workspace) (i : Invocation) : Except Breakdown Run :=
  match i.command with
  | .scan paths output strict config useCache =>
    scan stamp w i.verbose paths output strict config useCache
  | .check result => .ok (check w result)

def run (stamp : String) (w : Workspace) (args : List String) : Except Breakdown Run :=
  match Invocation.ofArguments args with
  | .error refusal => .error (.notStarted refusal)
  | .ok i => runInvocation stamp w i

end CommandLine

end PropSchema
