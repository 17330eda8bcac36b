import PropSchema.TypeScript.Markup
import PropSchema.TypeScript.Functions
/-!
Expressions, as far as it takes to know where they end. Which operators bind more tightly makes no
difference to that, so an expression is read as operands with operators between them.
-/
namespace PropSchema.TypeScript

/-- Marks between two operands; no mark stands behind one that it begins with. -/
def operatorMarks : List String :=
  [">>>=", "===", "!==", "**=", "<<=", ">>=", ">>>", "&&=", "||=", "??=", "==", "!=", "<=", ">=",
   "&&", "||", "??", "**", "<<", ">>", "+=", "-=", "*=", "/=", "%=", "&=", "|=", "^=", "=", "<",
   ">", "+", "-", "*", "/", "%", "&", "|", "^"]

/-- Words before an operand. -/
def prefixWords : List String := ["typeof", "void", "delete", "await", "new"]

/-- Words that are operands but no identifiers. -/
def valueWords : List String := ["this", "super", "true", "false", "null", "undefined"]

namespace Cursor

/-- Past a mark or word that stands before an operand. -/
def prefixOperator? (c : Cursor) : Option Cursor :=
  match ["++", "--", "+", "-", "!", "~"].findSome? fun mark => c.mark? mark with
  | some after => some after
  | none => match c.readWord with
  | none => none
  | some (word, after) =>
    if prefixWords.contains word && !(after.startsWith "." || after.startsWith "=>") then some after
    else none

/-- Whether type arguments before this place are such, and not two comparisons. -/
def followsTypeArguments (c : Cursor) : Bool :=
  c.broken || c.atEnd ||
    ["(", "\x60", ")", "]", ":", ";", ",", ".", "?", "==", "!=", "&", "|", "^", "\x7d", "="].any
      c.startsWith

/-- Past a mark between two operands. -/
def operatorMark? (c : Cursor) : Option Cursor :=
  if c.startsWith "=>" || c.startsWith "++" || c.startsWith "--" then none
  else operatorMarks.findSome? fun mark => c.mark? mark

end Cursor

namespace Grammar

/-- A member of an object written as a value. -/
def objectMember? (g : Grammar) : Recogniser := fun c =>
  match c.mark? "..." with
  | some next => (g.expression .plain next).map (·.2)
  | none => do
    let follows (c : Cursor) : Bool := c.startsName || c.startsWith "*"
    let (_, start) := c.readModifiers memberModifiers follows c.left
    let (_, named) ← g.propertyName (start.skipMark "*")
    match named.mark? ":" with
    | some next => (g.expression .plain next).map (·.2)
    | none =>
      if named.startsWith "(" || named.startsWith "<" then g.methodRest? named
      else g.initializer? .plain named

def template? (g : Grammar) : Recogniser := fun c => c.template? (g.sequence .plain)

/-- An operand that begins with a word. -/
def wordOperand (g : Grammar) (s : Setting) : Reader ValueKind := fun c =>
  match (g.arrow? s c).or (g.function? false c) with
  | some after => some (.other, after)
  | none => match c.word with
  | "class" => (g.classDecl c).map fun (_, after) => (.other, after)
  | "import" => c.readWord.map fun (_, after) => (.other, after)
  | "new" => do
    let (_, next) ← c.readWord
    let dot ← next.mark? "."
    let (_, after) ← dot.readWord
    pure (.other, after)
  | "yield" => do
    let (_, next) ← c.readWord
    let start := next.skipMark "*"
    let value := if next.broken then none else g.expression s start
    pure (.other, (value.map (·.2)).getD start)
  | word =>
    if valueWords.contains word then c.readWord.map fun (_, after) => (.other, after)
    else c.readIdentifier.map fun (_, after) => (.identifier, after)

/-- An operand without what may stand behind it. -/
def primary (g : Grammar) (s : Setting) : Reader ValueKind := fun c =>
  let other (accepted : Option Cursor) : Option (ValueKind × Cursor) :=
    accepted.map fun after => (.other, after)
  match c.peek? with
  | some '(' =>
    match g.arrow? s c with
    | some after => some (.other, after)
    | none => do
      let inside ← g.sequence .plain (← c.mark? "(")
      other (inside.mark? ")")
  | some '[' => do other (sparseList? g.spreadable "]" c.left (← c.mark? "["))
  | some '{' => do other (sparseList? g.objectMember? "\x7d" c.left (← c.mark? "\x7b"))
  | some '\x60' => other (g.template? c)
  | some '/' => other c.regex?
  | some '@' => (g.classDecl c).map fun (_, after) => (.other, after)
  | some '#' => do other ((← c.mark? "#").readWord.map (·.2))
  | some '<' =>
    match g.arrow? s c with
    | some after => some (.other, after)
    | none =>
      if g.markup then other (g.element? c)
      else do
        let (_, inside) ← g.typeExpr false (← c.mark? "<")
        other ((g.expression s (← inside.mark? ">")).map (·.2))
  | _ =>
    match c.readString with
    | some (_, after) => some (.string, after)
    | none => match c.readNumber with
    | some (_, after) => some (.other, after)
    | none => g.wordOperand s c

/-- Past type arguments behind a value. -/
def valueTypeArguments? (g : Grammar) : Recogniser := fun c =>
  match g.typeArguments c with
  | some (_ :: _, after) => if after.followsTypeArguments then some after else none
  | _ => none

/-- Type arguments of a base class are no part of the value, unless the value goes on. -/
def inheritedTypeArguments? (g : Grammar) : Recogniser := fun c =>
  match g.typeArguments c with
  | some (_, after) =>
    if ["(", ".", "?.", "[", "\x60"].any after.startsWith then some after else none
  | none => none

/-- One step behind a value: a member, a call, an index, or a mark. -/
def suffix (g : Grammar) (typeArguments? : Recogniser) : Reader ValueKind := fun c =>
  let other (accepted : Option Cursor) : Option (ValueKind × Cursor) :=
    accepted.map fun after => (.other, after)
  let index (c : Cursor) : Option Cursor := do
    let inside ← g.sequence .plain (← c.mark? "[")
    inside.mark? "]"
  let name (c : Cursor) : Option (ValueKind × Cursor) :=
    (c.skipMark "#").readWord.map fun (_, after) => (.member, after)
  match c.peek? with
  | some '(' => other (g.callArguments? c)
  | some '[' => other (index c)
  | some '\x60' => other (g.template? c)
  | some '<' => other (typeArguments? c)
  | some '.' => if c.startsWith "..." then none else (c.mark? ".").bind name
  | some '?' => do
    let next ← c.mark? "?."
    if next.peek?.any isDecimal then none
    else match g.typeArguments next with
    | some (_, typed) => other (g.callArguments? typed)
    | none => match (g.callArguments? next).or ((index next).or (g.template? next)) with
    | some after => some (.other, after)
    | none => name next
  | some '!' => if c.broken || c.startsWith "!=" then none else other (c.mark? "!")
  | some '+' => if c.broken then none else other (c.mark? "++")
  | some '-' => if c.broken then none else other (c.mark? "--")
  | _ => none

/-- All steps behind a value; the last one decides what it looks like. -/
def suffixes (g : Grammar) (typeArguments? : Recogniser) (kind : ValueKind) (c : Cursor) :
    ValueKind × Cursor :=
  let (kinds, after) := many (g.suffix typeArguments?) c.left c
  (kinds.getLastD kind, after)

/-- An operand with the operators before it and the steps behind it. -/
def operand (g : Grammar) (s : Setting) : Reader ValueKind := fun c => do
  let start := repeated Cursor.prefixOperator? c.left c
  let (kind, next) ← g.primary s start
  let (kind, after) := g.suffixes g.valueTypeArguments? kind next
  pure (if start.left == c.left then kind else .other, after)

/-- Past the two branches of a choice. -/
def choice? (g : Grammar) (s : Setting) : Recogniser := fun c => do
  let next ← c.mark? "?"
  let branch (choice : Bool) : Option Cursor := do
    let (_, after) ← g.expression ⟨false, choice⟩ next
    after.mark? ":"
  let colon ← (branch s.choice).or (branch true)
  (g.expression s colon).map (·.2)

/-- Past an operator and the operand behind it. -/
def operation? (g : Grammar) (s : Setting) : Recogniser := fun c =>
  if c.hasWord then
    match c.readWord with
    | some ("in", next) => if s.loopHead then none else (g.operand s next).map (·.2)
    | some ("instanceof", next) => (g.operand s next).map (·.2)
    | some (word, next) =>
      if c.broken || !(word == "as" || word == "satisfies") then none
      else (next.keyword? "const").or ((g.typeExpr true next).map (·.2))
    | none => none
  else if c.startsWith "?" && !c.startsWith "??" then g.choice? s c
  else (c.operatorMark?).bind fun next => (g.operand s next).map (·.2)

/-- An expression up to the next comma. -/
def value (g : Grammar) (s : Setting) : Reader ValueKind := fun c => do
  let (kind, next) ← g.operand s c
  let after := repeated (g.operation? s) next.left next
  pure (if after.left == next.left then kind else .other, after)

end Grammar

end PropSchema.TypeScript
