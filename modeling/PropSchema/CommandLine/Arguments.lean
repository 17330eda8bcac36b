import PropSchema.Path
/-!
The arguments of a command. Options may be cut short as long as they are told apart, an option's
value follows it or an equals sign, and short options may share one dash. Arguments that are no
options stand together in one row; behind two dashes nothing is an option.
-/
namespace PropSchema

/-- An option by its names. -/
structure Switch where
  names : List String
  takesValue : Bool
  deriving DecidableEq, Inhabited

/-- Why arguments start nothing. -/
inductive Refusal where
  | usage
  | help
  deriving DecidableEq

/-- What an argument is taken for. -/
inductive Word where
  | plain (text : String)
  | separator
  /-- An option in one of its spellings, with what is joined to it. -/
  | option (switch : Switch) (isLong : Bool) (value : Option (List Char))
  | unknown

namespace Arguments

def helpSwitch : Switch := ⟨["-h", "--help"], false⟩
def verboseSwitch : Switch := ⟨["-v", "--verbose"], false⟩
def outputSwitch : Switch := ⟨["-o", "--output"], true⟩
def strictSwitch : Switch := ⟨["--strict"], false⟩
def configSwitch : Switch := ⟨["--config"], true⟩
def noCacheSwitch : Switch := ⟨["--no-cache"], false⟩

def commonSwitches : List Switch := [helpSwitch, verboseSwitch]

def scanSwitches : List Switch :=
  commonSwitches ++ [outputSwitch, strictSwitch, configSwitch, noCacheSwitch]

/-- The switch of a full name. -/
def named? (switches : List Switch) (name : List Char) : Option Switch :=
  switches.find? fun s => s.names.contains (String.ofList name)

/-- The only switch with a name that begins in a given way. -/
def begun? (switches : List Switch) (start : List Char) : Option Switch :=
  match switches.filter fun s => s.names.any fun name => start.isPrefixOf name.toList with
  | [s] => some s
  | _ => none

/-- A text up to the first equals sign, and what follows it. -/
def splitValue (cs : List Char) : List Char × Option (List Char) :=
  let name := cs.takeWhile (· != '=')
  match cs.drop name.length with
  | [] => (name, none)
  | _ :: value => (name, some value)

/-- Negative numbers are no options. -/
def isNegativeNumber (cs : List Char) : Bool :=
  let digits (ds : List Char) : Bool := !ds.isEmpty && ds.all Char.isDigit
  match cs with
  | '-' :: rest =>
    let whole := rest.takeWhile Char.isDigit
    match rest.drop whole.length with
    | [] => digits rest
    | '.' :: fraction => digits fraction
    | _ => false
  | _ => false

/-- An option that is cut short, or a short one with what is joined to it. -/
def loose? (switches : List Switch) (cs : List Char) : Option Word :=
  match cs with
  | '-' :: '-' :: _ =>
    let (name, value) := splitValue cs
    (begun? switches name).map fun s => .option s true value
  | '-' :: letter :: value => (named? switches ['-', letter]).map fun s => .option s false (some value)
  | _ => none

/-- What an argument is taken for, unless two dashes stand before it. -/
def wordOf (switches : List Switch) (text : String) : Word :=
  let cs := text.toList
  let isLong := ['-', '-'].isPrefixOf cs
  if cs == ['-', '-'] then .separator
  else if cs.length < 2 || cs.head? != some '-' then .plain text
  else match named? switches cs with
  | some s => .option s isLong none
  | none =>
    let (name, value) := splitValue cs
    match value.bind fun _ => named? switches name with
    | some s => .option s isLong value
    | none =>
      match loose? switches cs with
      | some word => word
      | none => if isNegativeNumber cs || cs.contains ' ' then .plain text else .unknown

/-- What arguments are taken for. -/
def wordsOf (switches : List Switch) : List String → List Word
  | [] => []
  | text :: rest =>
    match wordOf switches text with
    | .separator => .separator :: rest.map .plain
    | word => word :: wordsOf switches rest

/-- What has been read of arguments. -/
structure Reading where
  /-- Options by their first names, the latest first. -/
  given : List (String × String)
  row : List String
  /-- Whether the row has ended. -/
  isClosed : Bool
  /-- Whether there was something that has no meaning. -/
  isStray : Bool

namespace Reading

def empty : Reading := ⟨[], [], false, false⟩

def give (r : Reading) (s : Switch) (value : String) : Reading :=
  { r with given := (s.names.headD "", value) :: r.given, isClosed := !r.row.isEmpty }

/-- One more argument, which belongs to the row while that goes on. -/
def take (r : Reading) (most : Nat) (text : String) : Reading :=
  if r.isClosed || r.row.length == most then { r with isStray := true }
  else { r with row := r.row ++ [text] }

/-- Two dashes may stand before the row or within it. -/
def separate (r : Reading) : Reading := if r.isClosed then { r with isStray := true } else r

def stray (r : Reading) : Reading := { r with isStray := true, isClosed := !r.row.isEmpty }

def has (r : Reading) (s : Switch) : Bool := (r.given.lookup (s.names.headD "")).isSome

def value? (r : Reading) (s : Switch) : Option String := r.given.lookup (s.names.headD "")

end Reading

/--
The reading after short options that share a dash, given their letters; the switch that still needs
a value is left over.
-/
def cluster (switches : List Switch) :
    Switch → List Char → Reading → Except Refusal (Reading × Option Switch)
  | s, [], r =>
    if s.takesValue then .ok (r, some s)
    else if s == helpSwitch then .error .help
    else .ok (r.give s "", none)
  | s, letter :: more, r =>
    if s.takesValue then .ok (r.give s (String.ofList (letter :: more)), none)
    else if s == helpSwitch then .error .help
    else match named? switches ['-', letter] with
    | some next => cluster switches next more (r.give s "")
    | none => .error .usage

/-- The reading after an option. -/
def option (switches : List Switch) (s : Switch) (isLong : Bool) (value : Option (List Char))
    (r : Reading) : Except Refusal (Reading × Option Switch) :=
  match value with
  | none => cluster switches s [] r
  | some value =>
    if s.takesValue then .ok (r.give s (String.ofList value), none)
    else if isLong || value.isEmpty then .error .usage
    else cluster switches s value r

/-- Reads words, given a switch that waits for its value; the row has at most so many. -/
def readWords (switches : List Switch) (most : Nat) :
    Option Switch → List Word → Reading → Except Refusal Reading
  | none, [], r => .ok r
  | some _, [], _ => .error .usage
  | some s, .plain text :: rest, r => readWords switches most none rest (r.give s text)
  | some _, _ :: _, _ => .error .usage
  | none, .plain text :: rest, r => readWords switches most none rest (r.take most text)
  | none, .separator :: rest, r => readWords switches most none rest r.separate
  | none, .unknown :: rest, r => readWords switches most none rest r.stray
  | none, .option s isLong value :: rest, r => do
    let (r, waiting) ← option switches s isLong value r
    readWords switches most waiting rest r

/-- Reads arguments of which all have a meaning and one at least is no option. -/
def readAll (switches : List Switch) (most : Nat) (args : List String) :
    Except Refusal Reading := do
  let r ← readWords switches most none (wordsOf switches args) .empty
  if r.row.isEmpty || r.isStray then throw .usage
  pure r

end Arguments

/-- What is to be done. -/
inductive Command where
  | scan (paths : List Path) (output : Option Path) (strict : Bool) (config : Path) (useCache : Bool)
  | check (result : Path)
  deriving DecidableEq

structure Invocation where
  verbose : Bool
  command : Command
  deriving DecidableEq

namespace Invocation

open Arguments

def ofScan (verbose : Bool) (args : List String) : Except Refusal Invocation := do
  let r ← readAll scanSwitches args.length args
  pure ⟨verbose || r.has verboseSwitch,
    .scan (r.row.map .ofText) ((r.value? outputSwitch).map .ofText) (r.has strictSwitch)
      (.ofText ((r.value? configSwitch).getD ".")) (!r.has noCacheSwitch)⟩

def ofCheck (verbose : Bool) (args : List String) : Except Refusal Invocation := do
  let r ← readAll commonSwitches 1 args
  pure ⟨verbose || r.has verboseSwitch, .check (.ofText (r.row.headD ""))⟩

/-- The invocation behind the options that stand before the name of a command. -/
def ofWords (verbose stray : Bool) : List String → Except Refusal Invocation
  | [] => .error .usage
  | text :: rest =>
    match wordOf commonSwitches text with
    | .separator => .error .usage
    | .unknown => ofWords verbose true rest
    | .option s isLong value => do
      let (r, _) ← option commonSwitches s isLong value .empty
      ofWords (verbose || r.has verboseSwitch) stray rest
    | .plain name => do
      let found ←
        if name == "scan" then ofScan verbose rest
        else if name == "check" then ofCheck verbose rest
        else throw .usage
      if stray then throw .usage else pure found

def ofArguments (args : List String) : Except Refusal Invocation := ofWords false false args

end Invocation

end PropSchema
