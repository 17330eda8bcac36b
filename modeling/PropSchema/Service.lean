import PropSchema.Json
import PropSchema.Scan
import PropSchema.Schema.Wire
import PropSchema.Settings
/-!
The requests that a service answers: whether it is there, and the scan of a source that the
request brings along.
-/
namespace PropSchema.Service

structure Request where
  method : String
  path : String
  body : Option Json

inductive Reply where
  | healthy
  | scanned (x : Extraction)
  /-- The source has a type that cannot be classified. -/
  | unclassified (fault : PassFault)
  /-- The scan fails otherwise, or its outcome has no text; which of them is not told. -/
  | broken
  /-- The body is not what the request needs. -/
  | invalid
  | notFound
  | notAllowed

def Reply.status : Reply → Nat
  | .healthy => 200
  | .scanned _ => 200
  | .unclassified _ => 422
  | .broken => 500
  | .invalid => 422
  | .notFound => 404
  | .notAllowed => 405

def detail (message : String) : Json := .obj [("detail", .str message)]

/-- The body of a reply; what is wrong with an invalid body is not told. -/
def Reply.body : Reply → Json
  | .healthy => .obj [("status", .str "ok")]
  | .scanned x => Wire.ofExtraction x
  | .unclassified fault => detail fault.message
  | .broken => .str "Internal Server Error"
  | .invalid => detail "invalid"
  | .notFound => detail "Not Found"
  | .notAllowed => detail "Method Not Allowed"

/-- What a scan is asked for with. -/
structure ScanRequest where
  source : String
  path : String
  strict : Bool
  deriving DecidableEq

/-- The path that a source has if none is given. -/
def defaultPath : String := "component.tsx"

def trueWords : List String := ["1", "on", "t", "true", "y", "yes"]
def falseWords : List String := ["0", "off", "f", "false", "n", "no"]

/-- The truth value that a value may stand for. -/
def truth? : Json → Option Bool
  | .bool b => some b
  | .int n => if n == 0 then some false else if n == 1 then some true else none
  | .float x =>
    if x.sameNumber (.zero false) then some false
    else if x.sameNumber .one then some true
    else none
  | .str s =>
    let word := Text.lower s
    if trueWords.contains word then some true
    else if falseWords.contains word then some false
    else none
  | _ => none

/-- A field that may be missing but not be of another kind. -/
def optional {α : Type} (body : Json) (name : String) (missing : α) (read? : Json → Option α) :
    Option α :=
  match body.field? name with
  | none => some missing
  | some value => read? value

def text? : Json → Option String
  | .str s => some s
  | _ => none

def ScanRequest.ofBody? (body : Json) : Option ScanRequest := do
  let source ← text? (← body.field? "source")
  let path ← optional body "path" defaultPath text?
  let strict ← optional body "strict" false truth?
  pure ⟨source, path, strict⟩

/-- The scan that is asked for, under settings that the request may make strict. -/
def scan (settings : Settings) (r : ScanRequest) : Except UnknownKind Reply := do
  let rules ← Settings.rules (if r.strict then { settings with policy := .strict } else settings)
  match (Scan.ofText rules r.path r.source).outcome with
  | .ok x => pure (if (Wire.ofExtraction x).isWritable then .scanned x else .broken)
  | .error fault => pure (if fault.isClassification then .unclassified fault else .broken)

/-- Paths with a method each; slashes at the end of a path do not count, nor does its query. -/
def methodFor? (path : String) : Option String :=
  [("/health", "GET"), ("/scan", "POST")].lookup
    (String.ofList (Text.dropRightWhile (· == '/') (path.toList.takeWhile (· != '?'))))

/-- The reply to a request; settings with an unknown kind of symbol can answer no scan. -/
def reply (settings : Settings) (r : Request) : Except UnknownKind Reply :=
  match methodFor? r.path with
  | none => .ok .notFound
  | some method =>
    if r.method != method then .ok .notAllowed
    else if method == "GET" then .ok .healthy
    else match r.body.bind ScanRequest.ofBody? with
    | none => .ok .invalid
    | some request => scan settings request

end PropSchema.Service
