import PropSchema.TypeScript.Types
/-!
Bindings, blocks and functions, as far as it takes to know where they end.
-/
namespace PropSchema.TypeScript

/-- Past items separated by commas up to a closing mark; items may be missing. -/
def sparseList? (item : Recogniser) (closing : String) : Nat → Recogniser
  | 0, _ => none
  | fuel + 1, c =>
    match c.mark? closing with
    | some after => some after
    | none => match c.mark? "," with
    | some after => sparseList? item closing fuel after
    | none => do
      let after ← item c
      if after.startsWith "," || after.startsWith closing then sparseList? item closing fuel after
      else none

namespace Grammar

/-- A binding that may be spread and may be set. -/
def elementPattern? (g : Grammar) : Recogniser := fun c => do
  let bound ← g.pattern (c.skipMark "...")
  g.initializer? .plain bound

def fieldPattern? (g : Grammar) : Recogniser := fun c =>
  match c.mark? "..." with
  | some next => g.pattern next
  | none => do
    let (_, named) ← g.propertyName c
    let bound ← match named.mark? ":" with
      | some next => g.pattern next
      | none => some named
    g.initializer? .plain bound

/-- Past a name to bind, or an object or array taken apart. -/
def bindingPattern? (g : Grammar) : Recogniser := fun c =>
  match c.mark? "\x7b" with
  | some next => sparseList? g.fieldPattern? "\x7d" c.left next
  | none => match c.mark? "[" with
  | some next => sparseList? g.elementPattern? "]" c.left next
  | none => c.readIdentifier.map (·.2)

/-- Past a block of statements. -/
def block? (g : Grammar) : Recogniser := fun c => do
  let next ← c.mark? "\x7b"
  let (_, last) := many g.statement next.left next
  last.mark? "\x7d"

/-- Past a function behind its keyword; only a signature may lack the body. -/
def functionRest? (g : Grammar) (signature : Bool) : Recogniser := fun c => do
  let start := c.skipMark "*"
  let named := match start.readWord with
    | some (_, after) => after
    | none => start
  let (_, after) ← g.callable true named
  match g.block? after with
  | some last => some last
  | none => if signature then after.semicolon? else none

/-- Past a function expression, perhaps an asynchronous one. -/
def function? (g : Grammar) (signature : Bool) : Recogniser := fun c =>
  let start := match c.keyword? "async" with
    | some next => if next.broken then c else next
    | none => c
  (start.keyword? "function").bind (g.functionRest? signature)

/-- Past a method behind its name. -/
def methodRest? (g : Grammar) : Recogniser := fun c => do
  let (_, after) ← g.callable true c
  g.block? after

/-- Past what an arrow leads to. -/
def arrowBody? (g : Grammar) (s : Setting) : Recogniser := fun c => do
  let next ← c.mark? "=>"
  if next.startsWith "\x7b" then g.block? next else (g.expression s next).map (·.2)

/-- Past an arrow function. -/
def arrow? (g : Grammar) (s : Setting) : Recogniser := fun c =>
  let plain : Recogniser := fun c =>
    if c.hasWord then (c.readIdentifier.map (·.2)).bind (g.arrowBody? s)
    else do
      let (_, next) ← g.typeParams c
      let (_, closed) ← g.params next
      let after ←
        if s.choice || !closed.startsWith ":" then some closed
        else (afterMark ":" (g.result false) closed).map (·.2)
      g.arrowBody? s after
  match (c.keyword? "async").bind plain with
  | some after => some after
  | none => plain c

end Grammar

end PropSchema.TypeScript
