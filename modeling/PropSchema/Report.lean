import PropSchema.Classify.Context
import PropSchema.Path
import PropSchema.Schema.Wire
/-!
What a run reports about its course, line by line, to whoever watches it.
-/
namespace PropSchema

inductive Severity where
  | debug
  | info
  | warning
  deriving DecidableEq

def Severity.name : Severity → String
  | .debug => "DEBUG"
  | .info => "INFO"
  | .warning => "WARNING"

inductive Report where
  /-- A file is read and its types are looked into. -/
  | scanning (key : String) (path : Path)
  /-- The outcome of a file is taken from the cache. -/
  | reused (key : String)
  | noted (note : Note)
  | unreadableEntry (key : String) (fault : WireFault)
  | unreadableCache (path : Path) (reason : String)
  | found (components files : Nat)
  | wrote (components : Nat) (place : String)

namespace Report

def severity : Report → Severity
  | .noted _ => .debug
  | .unreadableEntry _ _ => .debug
  | .unreadableCache _ _ => .warning
  | _ => .info

def message : Report → String
  | .scanning key _ => s!"Scanning {key}"
  | .reused key => s!"Using cached result for {key}"
  | .noted note => note.message
  | .unreadableEntry key fault =>
    s!"Discarding unreadable cache entry {key}: " ++ fault.message
  | .unreadableCache path reason => "Ignoring unreadable cache " ++ path.text ++ ": " ++ reason
  | .found components files => s!"Found {components} component(s) across {files} file(s)"
  | .wrote components place => s!"Wrote {components} component(s) to {place}"

/-- The line of a report. -/
def line (r : Report) : String := "[propscan] " ++ r.severity.name ++ " " ++ r.message ++ "\n"

/-- Whether a report is shown; only the talkative show all. -/
def isShown (verbose : Bool) (r : Report) : Bool := verbose || r.severity != .debug

/-- The lines of those reports that are shown. -/
def lines (verbose : Bool) (reports : List Report) : String :=
  String.join ((reports.filter (isShown verbose)).map line)

end Report

end PropSchema
