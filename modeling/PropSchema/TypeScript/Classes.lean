import PropSchema.TypeScript.Expressions
/-!
Classes: their type parameters, what they extend, and their fields.
-/
namespace PropSchema.TypeScript

/-- The words that may stand before the name of a class member. -/
def classModifiers : List String := memberModifiers ++ ["declare", "abstract", "accessor"]

namespace Grammar

/-- Whether the bases of a class may go on or end here. -/
def endsHeritage (c : Cursor) : Bool :=
  c.startsWith "\x7b" || c.startsWith "," || c.isWord "implements"

/-- A base that is named, or a value with steps behind it. -/
def namedBase (g : Grammar) : Reader Heritage := fun c => do
  let (kind, next) ← g.primary .plain c
  let (kind, named) := g.suffixes g.inheritedTypeArguments? kind next
  let (arguments, after) ← g.typeArgumentsIfAny named
  let text := c.textTo named
  let name : BaseName :=
    match kind with
    | .identifier => .simple text
    | .member => .dotted ⟨c.word, String.ofList (text.toList.drop c.word.length)⟩
    | _ => .other text
  if endsHeritage after then pure (⟨name, arguments, c.place⟩, after) else none

/-- A base that is any expression. -/
def computedBase (g : Grammar) : Reader Heritage := fun c => do
  let (_, valued) ← g.expression .plain c
  let (arguments, after) ← g.typeArgumentsIfAny valued
  pure (⟨.other (c.textTo valued), arguments, c.place⟩, after)

/-- One base of a class. -/
def heritage (g : Grammar) : Reader Heritage := orElse g.namedBase g.computedBase

/-- What stands between the name of a class and its body. -/
def heritageClause (g : Grammar) : Reader (List Heritage) := fun c => do
  let another : Reader Heritage := fun c => do g.heritage (← c.mark? ",")
  let (bases, next) ← match c.keyword? "extends" with
    | none => some ([], c)
    | some start => do
      let (first, next) ← g.heritage start
      let (more, after) := many another next.left next
      pure (first :: more, after)
  match next.keyword? "implements" with
  | none => pure (bases, next)
  | some start => do
    let (_, first) ← g.typeExpr false start
    let after := repeated (fun c => do
      let (_, last) ← g.typeExpr false (← c.mark? ",")
      pure last) first.left first
    pure (bases, after)

def staticBlock? (g : Grammar) : Recogniser := fun c => (c.keyword? "static").bind g.block?

/-- A class member with a name; methods give nothing. -/
def namedClassMember (g : Grammar) : Reader (Option Field) := fun c => do
  let follows (c : Cursor) : Bool := c.startsName || c.startsWith "*"
  let (modifiers, start) := (g.skipDecorators c).readModifiers classModifiers follows c.left
  let begun := start.skipMark "*"
  let (name, named) ← g.propertyName begun
  let (optional, marked) := flag "?" (named.skipMark "!")
  if marked.startsWith "(" || marked.startsWith "<" then
    let (_, signed) ← g.callable true marked
    match g.block? signed with
    | some after => pure (none, after)
    | none => (signed.semicolon?).map (none, ·)
  else
    let (typeExpr, typed) ← afterMark ":" (g.typeExpr true) marked
    let set ← g.initializer? .plain typed
    let after ← (set.mark? ",").or set.semicolon?
    let hidden :=
      modifiers.contains "private" || modifiers.contains "protected" || begun.startsWith "#"
    pure (some ⟨name, typeExpr, optional, modifiers.contains "static", hidden, c.place⟩, after)

def classMember (g : Grammar) : Reader (Option Field) := fun c =>
  match (c.mark? ";").or ((g.staticBlock? c).or (do
    let (_, start) := c.readModifiers classModifiers Cursor.startsName c.left
    let after ← g.indexSignature? start
    (after.mark? ",").or after.semicolon?)) with
  | some after => some (none, after)
  | none => g.namedClassMember c

/-- A class, with its decorators. -/
def classDeclaration (g : Grammar) : Reader ClassDecl := fun c => do
  let start := g.skipDecorators c
  let next ← ((start.keyword? "abstract").getD start).keyword? "class"
  let (name, named) :=
    match next.readIdentifier with
    | some (word, after) =>
      if word == "implements" && after.hasWord then (none, next) else (some word, after)
    | none => (none, next)
  let (typeParams, generic) ← g.typeParams named
  let (heritage, inherited) ← g.heritageClause generic
  let body ← inherited.mark? "\x7b"
  let (members, last) := many g.classMember body.left body
  let after ← last.mark? "\x7d"
  pure (⟨name, typeParams, heritage, members.filterMap id, c.place⟩, after)

end Grammar

end PropSchema.TypeScript
