import PropSchema.TypeScript.Grammar
/-!
Types as written: operands with brackets behind them, then intersections, unions and conditional
types. A type of which only the text is kept is read all the same, to know where it ends.
-/
namespace PropSchema.TypeScript

/-- The keywords of predefined types. -/
def predefinedTypes : List String :=
  ["any", "number", "boolean", "string", "symbol", "void", "unknown", "never", "object"]

/-- The words that may stand before the name of a member of an object type. -/
def memberModifiers : List String :=
  ["public", "private", "protected", "static", "override", "readonly", "async", "get", "set"]

/-- The words that may stand before the name of a parameter. -/
def paramModifiers : List String :=
  ["public", "private", "protected", "override", "readonly"]

namespace Grammar

/-- Type arguments in angle brackets. -/
def typeArguments (g : Grammar) : Reader (List TypeExpr) := fun c => do
  let next ← c.mark? "<"
  commaList (g.typeExpr false) ">" c.left next

/-- Type arguments, none if there are no angle brackets. -/
def typeArgumentsIfAny (g : Grammar) : Reader (List TypeExpr) := fun c =>
  if c.startsWith "<" then g.typeArguments c else some ([], c)

def typeParam (g : Grammar) : Reader (TypeParam TypeExpr) := fun c => do
  let (_, start) := c.readModifiers ["const"] Cursor.hasWord 1
  let (name, named) ← start.readWord
  let (bound, bounded) ← match named.keyword? "extends" with
    | some next => (g.typeExpr false next).map fun (t, last) => (some t, last)
    | none => afterMark ":" (g.typeExpr false) named
  let (fallback, after) ← match bounded.assignment? with
    | some next => (g.typeExpr false next).map fun (t, last) => (some t, last)
    | none => some (none, bounded)
  pure (⟨name, bound, fallback, c.place⟩, after)

/-- Type parameters, none if there are no angle brackets. -/
def typeParams (g : Grammar) : Reader (List (TypeParam TypeExpr)) := fun c =>
  match c.mark? "<" with
  | none => some ([], c)
  | some next => commaList g.typeParam ">" c.left next

/-- A parameter; its binding may be taken apart, spread, annotated and set. -/
def param (g : Grammar) : Reader (Param TypeExpr) := fun c => do
  let startsBinding (c : Cursor) : Bool := c.hasWord || c.startsWith "\x7b" || c.startsWith "["
  let (_, start) := (g.skipDecorators c).readModifiers paramModifiers startsBinding c.left
  let bound ← g.pattern (start.skipMark "...")
  let (optional, marked) := flag "?" bound
  let (typeExpr, typed) ← afterMark ":" (g.typeExpr false) marked
  let after ← g.initializer? .plain typed
  pure (⟨start.textTo bound, typeExpr, optional⟩, after)

def params (g : Grammar) : Reader (List (Param TypeExpr)) := fun c => do
  let next ← c.mark? "("
  commaList g.param ")" c.left next

/-- The result of a function: a type, or what it tells of an argument. -/
def result (g : Grammar) (stops : Bool) : Reader TypeExpr := fun c =>
  let tells (c : Cursor) : Option Cursor := do
    let (_, named) ← c.readWord
    if named.broken then none
    else
      let next ← named.keyword? "is"
      let (_, after) ← g.typeExpr stops next
      pure after
  let assertion : Option Cursor := do
    let next ← c.keyword? "asserts"
    if next.broken then none
    else
      match tells next with
      | some after => some after
      | none => next.readWord.map (·.2)
  match assertion with
  | some after => some (.assertion, after)
  | none => match tells c with
  | some after => some (.predicate, after)
  | none => g.typeExpr stops c

/-- Type parameters, parameters and result of a method or function. -/
def callable (g : Grammar) (stops : Bool) : Reader (Callable TypeExpr) := fun c => do
  let (typeParams, next) ← g.typeParams c
  let (params, closed) ← g.params next
  let (result, after) ← afterMark ":" (g.result stops) closed
  pure (⟨typeParams, params, result⟩, after)

def functionType (g : Grammar) (stops : Bool) : Reader TypeExpr := fun c => do
  let (typeParams, next) ← g.typeParams c
  let (params, closed) ← g.params next
  let arrow ← closed.mark? "=>"
  let (result, after) ← g.result stops arrow
  pure (.function ⟨typeParams, params, some result⟩ c.place, after)

/-- Past an index signature or the mapping of a mapped type. -/
def indexSignature? (g : Grammar) : Recogniser := fun c => do
  let start := match (c.mark? "+").or (c.mark? "-") with
    | some next => next
    | none => c
  let (_, start) := start.readModifiers memberModifiers Cursor.startsName c.left
  let next ← start.mark? "["
  let (_, named) ← next.readWord
  let inside ← match named.mark? ":" with
    | some typed => (g.typeExpr false typed).map (·.2)
    | none => do
      let list ← named.keyword? "in"
      let (_, last) ← g.typeExpr false list
      match last.keyword? "as" with
      | some renamed => (g.typeExpr false renamed).map (·.2)
      | none => some last
  let closed ← inside.mark? "]"
  let signed := match (closed.mark? "+?").or (closed.mark? "-?") with
    | some next => next
    | none => closed.skipMark "?"
  let (_, after) ← afterMark ":" (g.typeExpr true) signed
  pure after

/-- Past a call or construct signature. -/
def callSignature? (g : Grammar) : Recogniser := fun c =>
  let start := ((c.keyword? "abstract").getD c).keyword? "new"
  let next := start.getD c
  if next.startsWith "(" || next.startsWith "<" then (g.callable true next).map (·.2) else none

/-- A property or method of an object type. -/
def namedMember (g : Grammar) : Reader (Member TypeExpr) := fun c => do
  let follows (c : Cursor) : Bool := c.startsName || c.startsWith "*"
  let (_, start) := c.readModifiers memberModifiers follows c.left
  let (name, named) ← g.propertyName (start.skipMark "*")
  let (optional, marked) := flag "?" named
  if marked.startsWith "<" || (marked.startsWith "(" && !marked.broken) then
    let (callable, after) ← g.callable true marked
    pure (.method name callable optional c.place, after)
  else
    let (typeExpr, after) ← afterMark ":" (g.typeExpr true) marked
    pure (.property name typeExpr optional c.place, after)

/-- A member of an object type, none for signatures without a name. -/
def member (g : Grammar) : Reader (Option (Member TypeExpr)) := fun c =>
  match (g.indexSignature? c).or (g.callSignature? c) with
  | some after => some (none, after)
  | none => (g.namedMember c).map fun (m, after) => (some m, after)

/-- Members up to the closing mark; commas, semicolons and line breaks separate them. -/
def membersRest (g : Grammar) : Nat → Reader (List (Member TypeExpr))
  | 0, _ => none
  | fuel + 1, c =>
    match (c.mark? "\x7d").or (c.mark? "|\x7d") with
    | some after => some ([], after)
    | none => match (c.mark? ",").or (c.mark? ";") with
    | some after => membersRest g fuel after
    | none => do
      let (found, after) ← g.member c
      let ended := after.broken || [",", ";", "\x7d", "|\x7d"].any after.startsWith
      if !ended then none
      else
        let (more, last) ← membersRest g fuel after
        pure (found.toList ++ more, last)

/-- The members of an object type or interface, in braces. -/
def members (g : Grammar) : Reader (List (Member TypeExpr)) := fun c => do
  let next ← (c.mark? "\x7b|").or (c.mark? "\x7b")
  g.membersRest c.left next

/-- A member of a tuple: its type, without label and marks. -/
def tupleMember (g : Grammar) : Reader TypeExpr := fun c =>
  let start := c.skipMark "..."
  let labelled : Option (TypeExpr × Cursor) := do
    let (_, named) ← start.readWord
    let next ← (named.skipMark "?").mark? ":"
    g.typeExpr false next
  match labelled with
  | some found => some found
  | none => do
    let (type, after) ← g.typeExpr false start
    pure (type, after.skipMark "?")

/-- The part of a dotted name after its first identifier. -/
def dots? : Recogniser := fun c => do
  let next ← if c.startsWith "..." then none else c.mark? "."
  let (_, after) ← next.readWord
  pure after

/-- Past what a type asks the type of. -/
def queried? (g : Grammar) : Recogniser := fun c => do
  let start ← match c.keyword? "import" with
    | some next => g.callArguments? next
    | none => c.readWord.map (·.2)
  let step (c : Cursor) : Option Cursor :=
    match c.mark? "?." with
    | some next => (next.skipMark "#").readWord.map (·.2)
    | none => match c.mark? "." with
    | some next => (next.skipMark "#").readWord.map (·.2)
    | none =>
      if c.startsWith "<" then (g.typeArguments c).map (·.2)
      else if c.startsWith "(" && !c.broken then g.callArguments? c
      else do
        let next ← if c.broken then none else c.mark? "["
        let (_, inside) ← g.typeExpr false next
        inside.mark? "]"
  pure (repeated step start.left start)

/-- A named type with its type arguments. -/
def reference (g : Grammar) : Reader TypeExpr := fun c => do
  let (head, next) ← c.readIdentifier
  let named := repeated dots? next.left next
  let (arguments, after) ← g.typeArgumentsIfAny named
  let name : TypeName :=
    if named.left == next.left then .simple head
    else .dotted ⟨head, String.ofList ((c.textTo named).toList.drop head.length)⟩
  pure (.reference name arguments c.place, after)

/-- A type that its first word tells apart from a name. -/
def wordType (g : Grammar) : Reader TypeExpr := fun c =>
  let textOnly (accept : Recogniser) (next : Cursor) : Option (TypeExpr × Cursor) :=
    (accept next).map fun after => (.other (c.textTo after) c.place, after)
  match c.readWord with
  | none => none
  | some (word, next) =>
    if predefinedTypes.contains word then some (.keyword word c.place, next)
    else match word with
    | "null" => some (.null, next)
    | "undefined" => some (.undefined, next)
    | "true" => some (.boolean true c.place, next)
    | "false" => some (.boolean false c.place, next)
    | "this" => some (.other word c.place, next)
    | "unique" => (next.keyword? "symbol").map fun after =>
      (.keyword (c.textTo after) c.place, after)
    | "typeof" => textOnly g.queried? next
    | "import" => textOnly g.queried? c
    | _ => none

def numberType : Reader TypeExpr := fun c => do
  let unsigned := ((c.mark? "-").or (c.mark? "+")).getD c
  let (_, after) ← unsigned.readNumber
  pure (.number (c.textTo after) c.place, after)

/-- A type that no mark within splits. -/
def primaryType (g : Grammar) : Reader TypeExpr := fun c =>
  match c.peek? with
  | some '{' => (g.members c).map fun (members, after) => (.object members c.place, after)
  | some '[' => do
    let next ← c.mark? "["
    let (elements, after) ← commaList g.tupleMember "]" c.left next
    pure (.tuple elements c.place, after)
  | some '(' => do
    let next ← c.mark? "("
    let (inner, inside) ← g.typeExpr false next
    let after ← inside.mark? ")"
    pure (.parenthesized inner, after)
  | some '\x60' => do
    let hole (c : Cursor) : Option Cursor := (g.typeExpr false c).map (·.2)
    let after ← c.template? hole
    pure (.other (c.textTo after) c.place, after)
  | some '*' => (c.mark? "*").map fun after => (.other "*" c.place, after)
  | _ =>
    match c.readString with
    | some (text, after) => some (.string (unquoted text) c.place, after)
    | none => orElse numberType (orElse g.wordType g.reference) c

/-- The brackets behind a type: of an array, or of a look-up. -/
def bracketed (g : Grammar) (stops : Bool) (start : Cursor) : Nat → TypeExpr → Reader TypeExpr :=
  fun fuel type c =>
    match fuel with
    | 0 => some (type, c)
    | fuel + 1 =>
      if stops && c.broken then some (type, c)
      else match c.mark? "[" with
      | none => some (type, c)
      | some next =>
        match next.mark? "]" with
        | some after => bracketed g stops start fuel (.array type start.place) after
        | none => do
          let (_, inside) ← g.typeExpr false next
          let after ← inside.mark? "]"
          bracketed g stops start fuel (.other (start.textTo after) start.place) after

def postfixType (g : Grammar) (stops : Bool) : Reader TypeExpr := fun c => do
  let (type, after) ← g.primaryType c
  g.bracketed stops c after.left type after

/-- Past a type that begins with an operator and of which the text is kept. -/
def operatorType? (g : Grammar) (stops : Bool) : Recogniser := fun c =>
  match c.keyword? "keyof" with
  | some next => (orElse (g.postfixType stops) (g.typeExpr stops) next).map (·.2)
  | none => match c.keyword? "infer" with
  | some next => do
    let (_, named) ← next.readIdentifier
    match named.keyword? "extends" with
    | some bound => ((g.postfixType stops bound).map (·.2)).or (some named)
    | none => some named
  | none => match c.mark? "?" with
  | some next => (g.postfixType stops next).map (·.2)
  | none => do
    let next ← ((c.keyword? "abstract").getD c).keyword? "new"
    (g.functionType stops next).map (·.2)

/-- A member of an intersection. -/
def typeOperand (g : Grammar) (stops : Bool) : Reader TypeExpr := fun c =>
  let simple : Reader TypeExpr := fun c =>
    match g.operatorType? stops c with
    | some after => some (.other (c.textTo after) c.place, after)
    | none =>
      let locked : Option (TypeExpr × Cursor) := do
        let next ← c.keyword? "readonly"
        let (inner, after) ← g.typeExpr stops next
        pure (.readonly inner, after)
      match locked with
      | some found => some found
      | none => g.postfixType stops c
  if c.startsWith "(" || c.startsWith "<" then orElse (g.functionType stops) simple c
  else simple c

/-- Types joined by a mark, which may also stand before the first. -/
def joined (mark : String) (make : List TypeExpr → Place → TypeExpr) (read : Reader TypeExpr) :
    Reader TypeExpr := fun c => do
  let lead := c.mark? mark
  let (first, next) ← read (lead.getD c)
  let another : Reader TypeExpr := fun c => do read (← c.mark? mark)
  let (more, after) := many another next.left next
  pure (if lead.isNone && more.isEmpty then first else make (first :: more) c.place, after)

def unionType (g : Grammar) (stops : Bool) : Reader TypeExpr :=
  joined "|" .union (joined "&" .intersection (g.typeOperand stops))

/-- Past the condition and the two branches of a conditional type. -/
def condition? (g : Grammar) (stops : Bool) : Recogniser := fun c => do
  let next ← c.keyword? "extends"
  let (_, bounded) ← g.typeExpr stops next
  let question ← bounded.mark? "?"
  let (_, first) ← g.typeExpr stops question
  let colon ← first.mark? ":"
  let (_, after) ← g.typeExpr stops colon
  pure after

/-- A type of any form. -/
def anyType (g : Grammar) (stops : Bool) : Reader TypeExpr := fun c => do
  let (type, next) ← g.unionType stops c
  let conditional := if stops && next.broken then none else g.condition? stops next
  match conditional with
  | some after => pure (.other (c.textTo after) c.place, after)
  | none => pure (type, next)

end Grammar

end PropSchema.TypeScript
