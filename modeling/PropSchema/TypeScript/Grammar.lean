import PropSchema.TypeScript.Lexeme
/-!
The parts of the grammar that contain one another: types hold expressions in computed names,
expressions hold types, functions hold statements. `Grammar` names these parts, so that each kind
of phrase has a module of its own, whose readers call the others through it.
-/
namespace PropSchema.TypeScript

/-- What an expression looks like from outside. -/
inductive ValueKind where
  | identifier
  | member
  | string
  | other
  deriving DecidableEq, Inhabited

/-- What stands around an expression and takes marks away from it. -/
structure Setting where
  /-- In the head of a loop the word between name and list is no operator. -/
  loopHead : Bool
  /-- Inside a choice a colon after parentheses may belong to the choice, not to a function. -/
  choice : Bool

def Setting.plain : Setting := ⟨false, false⟩

/-- The phrases that contain one another. -/
structure Grammar where
  /-- Angle brackets in expressions are markup. -/
  markup : Bool
  expression : Setting → Reader ValueKind
  /-- If the flag is set, a line break before an opening bracket ends the type. -/
  typeExpr : Bool → Reader TypeExpr
  pattern : Recogniser
  classDecl : Reader ClassDecl
  statement : Reader Statement

/-- What is read after a mark, nothing if the mark is missing. -/
def afterMark {α : Type} (mark : String) (read : Reader α) : Reader (Option α) := fun c =>
  match c.mark? mark with
  | none => some (none, c)
  | some after => (read after).map fun (a, last) => (some a, last)

/-- Whether a mark is next; it is passed over then. -/
def flag (mark : String) (c : Cursor) : Bool × Cursor :=
  match c.mark? mark with
  | none => (false, c)
  | some after => (true, after)

namespace Cursor

/-- An equals sign that sets a value. -/
def assignment? (c : Cursor) : Option Cursor :=
  if c.startsWith "==" || c.startsWith "=>" then none else c.mark? "="

/-- Whether the name of a member may begin here. -/
def startsName (c : Cursor) : Bool :=
  c.hasWord || c.peek?.any fun ch =>
    ch == '"' || ch == '\'' || ch == '[' || ch == '#' || isDecimal ch

/-- Words before a name that say something of it; the last word on a line is a name itself. -/
def readModifiers (words : List String) (mayFollow : Cursor → Bool) :
    Nat → Cursor → List String × Cursor
  | 0, c => ([], c)
  | fuel + 1, c =>
    match c.readWord with
    | none => ([], c)
    | some (word, after) =>
      if words.contains word && !after.broken && mayFollow after then
        let (more, last) := readModifiers words mayFollow fuel after
        (word :: more, last)
      else ([], c)

/-- Past the rest of a template, given a way past its holes. -/
def templateRest? (hole : Recogniser) : Nat → Recogniser
  | 0, _ => none
  | fuel + 1, c =>
    match c.rest with
    | '\x60' :: _ => some c.step.settle
    | '\\' :: _ :: _ => templateRest? hole fuel (steps 2 c)
    | '$' :: '{' :: _ => do
      let after ← hole (steps 2 c).settle
      if after.startsWith "\x7d" then templateRest? hole fuel after.step else none
    | _ :: _ => templateRest? hole fuel c.step
    | [] => none

/-- Past a template, given a way past its holes. -/
def template? (hole : Recogniser) : Recogniser := fun c =>
  if c.peek? == some '\x60' then templateRest? hole c.left c.step else none

end Cursor

namespace Grammar

/-- Expressions separated by commas. -/
def sequence (g : Grammar) (s : Setting) : Recogniser := fun c => do
  let (_, after) ← g.expression s c
  pure (repeated (fun c => do
    let next ← c.mark? ","
    let (_, last) ← g.expression s next
    pure last) after.left after)

/-- Past an expression that sets a value, if an equals sign is next. -/
def initializer? (g : Grammar) (s : Setting) : Recogniser := fun c =>
  match c.assignment? with
  | none => some c
  | some after => (g.expression s after).map (·.2)

/-- The name of a member: strings without quotes, all else as written. -/
def propertyName (g : Grammar) : Reader String := fun c =>
  match c.readWord with
  | some found => some found
  | none => match c.readString with
  | some (text, after) => some (unquoted text, after)
  | none => match c.readNumber with
  | some found => some found
  | none => match c.mark? "#" with
  | some next => do
    let (_, after) ← next.readWord
    pure (c.textTo after, after)
  | none => do
    let next ← c.mark? "["
    let inside ← g.sequence .plain next
    let after ← inside.mark? "]"
    pure (c.textTo after, after)

/-- An argument or element, perhaps spread. -/
def spreadable (g : Grammar) : Recogniser := fun c =>
  (g.expression .plain (c.skipMark "...")).map (·.2)

/-- Past the arguments of a call. -/
def callArguments? (g : Grammar) : Recogniser := fun c => do
  let next ← c.mark? "("
  let (_, after) ← commaList (asReader g.spreadable) ")" c.left next
  pure after

/-- Past one decorator. -/
def decorator? (g : Grammar) : Recogniser := fun c => do
  let next ← c.mark? "@"
  match next.mark? "(" with
  | some inner =>
    let inside ← g.sequence .plain inner
    let after ← inside.mark? ")"
    pure (repeated g.callArguments? after.left after)
  | none =>
    let (_, named) ← next.readWord
    let after := repeated (fun c => do
      let next ← c.mark? "."
      let (_, last) ← next.readWord
      pure last) named.left named
    let typed := match after.mark? "<" with
      | none => after
      | some inner => match commaList (g.typeExpr false) ">" after.left inner with
        | some (_, last) => last
        | none => after
    pure (repeated g.callArguments? typed.left typed)

/-- Past all decorators. -/
def skipDecorators (g : Grammar) (c : Cursor) : Cursor := repeated g.decorator? c.left c

end Grammar

end PropSchema.TypeScript
