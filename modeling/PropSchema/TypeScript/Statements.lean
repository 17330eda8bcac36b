import PropSchema.TypeScript.Classes
/-!
Statements: declarations, imports and exports, and all others as far as it takes to know where
they end.
-/
namespace PropSchema.TypeScript

/-- Past a word that may say that only types are meant. -/
def skipTypeMark (c : Cursor) : Cursor :=
  match (c.keyword? "type").or (c.keyword? "typeof") with
  | none => c
  | some next =>
    if next.startsWith "\x7b" || next.startsWith "*" || next.startsWith "\"" ||
        next.startsWith "'" then next
    else if !next.hasWord then c
    else
      let further := next.readWord.map (·.2)
      let named := further.any fun c => c.hasWord || c.startsWith "=" || c.startsWith ","
      if next.isWord "from" || next.isWord "as" then
        if named && further.any fun c => c.isWord "from" || c.isWord "as" then next else c
      else next

/-- The name of something that a module exports; a string keeps its quotes. -/
def moduleName : Reader String := orElse Cursor.readWord Cursor.readString

/-- A name in an import or export clause, and the name it gets. -/
def moduleSpecifier : Reader (String × String) := fun c => do
  let (name, next) ← moduleName (skipTypeMark c)
  match next.keyword? "as" with
  | none => pure ((name, name), next)
  | some start => do
    let (given, after) ← moduleName start
    pure ((name, given), after)

def moduleSpecifiers : Reader (List (String × String)) := fun c => do
  commaList moduleSpecifier "\x7d" c.left (← c.mark? "\x7b")

/-- What an import statement binds. -/
def importClause : Reader (List ImportBinding) := fun c =>
  let namesOrWhole : Reader (List ImportBinding) := fun c =>
    match c.mark? "*" with
    | some next => do
      let (name, after) ← (← next.keyword? "as").readWord
      pure ([.whole name], after)
    | none => (moduleSpecifiers c).map fun (names, after) =>
      (names.map fun (imported, name) => .named imported name, after)
  match c.readWord with
  | none => namesOrWhole c
  | some (name, next) =>
    match next.mark? "," with
    | none => some ([.whole name], next)
    | some start => (namesOrWhole start).map fun (more, after) => (.whole name :: more, after)

namespace Grammar

/-- Past the attributes of an import and the end of its statement. -/
def importEnd? (g : Grammar) : Recogniser := fun c =>
  match (c.keyword? "with").or (if c.broken then none else c.keyword? "assert") with
  | some next => (g.expression .plain next).bind fun (_, after) => after.semicolon?
  | none => c.semicolon?

/-- Past a name that an import sets to a module or namespace. -/
def importAlias? (g : Grammar) : Recogniser := fun c => do
  let (_, next) ← c.readWord
  let (_, after) ← g.expression .plain (← next.assignment?)
  after.semicolon?

def importStatement (g : Grammar) : Reader Statement := fun c => do
  let next ← c.keyword? "import"
  match next.readString with
  | some (_, after) => (g.importEnd? after).map (.other, ·)
  | none =>
    let start := skipTypeMark next
    match g.importAlias? start with
    | some after => pure (.other, after)
    | none => do
      let (bindings, named) ← importClause start
      let (source, sourced) ← (← named.keyword? "from").readString
      let after ← g.importEnd? sourced
      pure (.imports (unquoted source) bindings, after)

def interfaceDeclaration (g : Grammar) : Reader InterfaceDecl := fun c => do
  let (name, named) ← (← c.keyword? "interface").readIdentifier
  let (typeParams, generic) ← g.typeParams named
  let another : Reader TypeExpr := fun c => do g.reference (← c.mark? ",")
  let (parents, inherited) ← match generic.keyword? "extends" with
    | none => some ([], generic)
    | some start => do
      let (first, next) ← g.reference start
      let (more, after) := many another next.left next
      pure (first :: more, after)
  let (members, after) ← g.members inherited
  pure (⟨name, typeParams, parents, members, c.place⟩, after)

def aliasDeclaration (g : Grammar) : Reader AliasDecl := fun c => do
  let (name, named) ← (← c.keyword? "type").readIdentifier
  let (typeParams, generic) ← g.typeParams named
  let (value, typed) ← g.typeExpr true (← generic.assignment?)
  let after ← typed.semicolon?
  pure (⟨name, typeParams, value, c.place⟩, after)

def enumMember (g : Grammar) : Reader EnumMember := fun c => do
  let (_, named) ← g.propertyName c
  match named.assignment? with
  | none => pure (⟨c.textTo named, none, c.place⟩, named)
  | some start => do
    let (kind, after) ← g.expression .plain start
    let text := start.textTo after
    let initializer : Initializer :=
      if kind = .string then .string (unquoted text) else .expression text
    pure (⟨c.textTo after, some initializer, c.place⟩, after)

def enumDeclaration (g : Grammar) : Reader EnumDecl := fun c => do
  let start := (c.keyword? "const").getD c
  let (name, named) ← (← start.keyword? "enum").readIdentifier
  let body ← named.mark? "\x7b"
  let (members, after) ← commaList g.enumMember "\x7d" c.left body
  pure (⟨name, members, c.place⟩, after)

/-- A declaration of a class, interface, type alias or enum. -/
def declaration (g : Grammar) : Reader Declaration := fun c =>
  match c.word with
  | "interface" => (g.interfaceDeclaration c).map fun (d, after) => (.interfaceDecl d, after)
  | "type" => (g.aliasDeclaration c).map fun (d, after) => (.aliasDecl d, after)
  | "enum" | "const" => (g.enumDeclaration c).map fun (d, after) => (.enumDecl d, after)
  | _ => (g.classDecl c).map fun (d, after) => (.classDecl d, after)

/-- Past one variable of a variable declaration. -/
def declarator? (g : Grammar) (s : Setting) : Recogniser := fun c => do
  let bound ← g.pattern c
  let (_, typed) ← afterMark ":" (g.typeExpr true) (bound.skipMark "!")
  g.initializer? s typed

/-- Past a variable declaration, without the end of its statement. -/
def variables? (g : Grammar) (s : Setting) : Recogniser := fun c => do
  let start ← (c.keyword? "const").or ((c.keyword? "let").or (c.keyword? "var"))
  let first ← g.declarator? s start
  pure (repeated (fun c => do g.declarator? s (← c.mark? ",")) first.left first)

/-- Past a namespace, an ambient module or the global scope. -/
def namespace? (g : Grammar) : Recogniser := fun c => do
  let (word, next) ← c.readWord
  if word == "global" then g.block? next
  else if (word == "namespace" || word == "module") && !next.broken then
    match next.readString with
    | some (_, after) => (g.block? after).or after.semicolon?
    | none => do
      let (_, named) ← next.readIdentifier
      g.block? (repeated dots? named.left named)
  else none

/-- Past a declaration that exists for types alone, or one of no concern to types. -/
def otherDeclaration? (g : Grammar) : Recogniser := fun c =>
  match (g.variables? .plain c).bind Cursor.semicolon? with
  | some after => some after
  | none => (g.function? true c).or (g.namespace? c)

/-- Past a declaration without implementation. -/
def ambient? (g : Grammar) : Recogniser := fun c => do
  let next ← c.keyword? "declare"
  if next.broken then none
  else match g.declaration next with
  | some (_, after) => some after
  | none => g.otherDeclaration? next

/-- What an export statement makes the default of the module. -/
def defaultExport (g : Grammar) : Reader Statement := fun c =>
  match g.declaration c with
  | some (.classDecl d, after) =>
    let after := after.skipMark ";"
    some (if d.name.isSome then (.exportDeclaration (.classDecl d), after)
      else (.exportClass d, after))
  | some (d, after) => some (.exportDeclaration d, after.skipMark ";")
  | none => match g.function? true c with
  | some after => some (.other, after.skipMark ";")
  | none => do
    let (kind, valued) ← g.expression .plain c
    let after ← valued.semicolon?
    pure (if kind = .identifier then .exportName (c.textTo valued) else .other, after)

/-- The text that an export names as its source, if it names one. -/
def exportSource (g : Grammar) : Reader (Option String) := fun c =>
  match c.keyword? "from" with
  | some next => do
    let (source, sourced) ← next.readString
    let after ← g.importEnd? sourced
    pure (some (unquoted source), after)
  | none => c.semicolon?.map (none, ·)

def exportStatement (g : Grammar) : Reader Statement := fun c => do
  let next ← c.keyword? "export"
  let clause : Option (Statement × Cursor) := do
    let (names, named) ← moduleSpecifiers (skipTypeMark next)
    let (source, after) ← g.exportSource named
    pure (.exportNames (names.map (·.1)) source, after)
  let all : Option Cursor := do
    let star ← (skipTypeMark next).mark? "*"
    let named := match star.keyword? "as" with
      | some start => ((moduleName start).map (·.2)).getD start
      | none => star
    (g.exportSource named).map (·.2)
  let assigned : Option Cursor := do
    let (_, after) ← g.expression .plain (← next.assignment?)
    after.semicolon?
  let global : Option Cursor := do
    let (_, after) ← (← (← next.keyword? "as").keyword? "namespace").readWord
    after.semicolon?
  match next.keyword? "default" with
  | some start => g.defaultExport start
  | none => match clause with
  | some found => pure found
  | none => match g.declaration next with
  | some (d, after) => pure (.exportDeclaration d, after)
  | none => do
    let after ← [all, assigned, global, (next.keyword? "import").bind g.importAlias?,
      g.ambient? next, g.otherDeclaration? next].findSome? id
    pure (.other, after)

/-- Past an expression in parentheses. -/
def parenthesized? (g : Grammar) : Recogniser := fun c => do
  let inside ← g.sequence .plain (← c.mark? "(")
  inside.mark? ")"

def substatement? (g : Grammar) : Recogniser := fun c => (g.statement c).map (·.2)

/-- Past the head of a for loop. -/
def loopHead? (g : Grammar) : Recogniser := fun c => do
  let next ← c.mark? "("
  let start := ((g.variables? ⟨true, false⟩ next).or (g.sequence ⟨true, false⟩ next)).getD next
  match (start.keyword? "of").or (start.keyword? "in") with
  | some list => do
    let inside ← g.sequence .plain list
    inside.mark? ")"
  | none => do
    let first ← start.mark? ";"
    let tested := (g.sequence .plain first).getD first
    let second ← tested.mark? ";"
    ((g.sequence .plain second).getD second).mark? ")"

/-- Past one case of a switch statement. -/
def switchCase? (g : Grammar) : Recogniser := fun c => do
  let head ← match c.keyword? "case" with
    | some next => g.sequence ⟨false, true⟩ next
    | none => c.keyword? "default"
  let body ← head.mark? ":"
  pure (repeated g.substatement? body.left body)

def tryStatement? (g : Grammar) : Recogniser := fun c => do
  let tried ← g.block? c
  let caught ← match tried.keyword? "catch" with
    | none => some tried
    | some next => match next.mark? "(" with
      | none => g.block? next
      | some binding => do
        let bound ← g.pattern binding
        let (_, typed) ← afterMark ":" (g.typeExpr false) bound
        g.block? (← typed.mark? ")")
  match caught.keyword? "finally" with
  | none => pure caught
  | some last => g.block? last

/-- Past a statement that begins with a word of its own. -/
def control? (g : Grammar) : Recogniser := fun c =>
  match c.readWord with
  | none => none
  | some (word, next) =>
    match word with
    | "if" => do
      let after ← g.substatement? (← g.parenthesized? next)
      match after.keyword? "else" with
      | none => pure after
      | some otherwise => g.substatement? otherwise
    | "for" => do g.substatement? (← g.loopHead? ((next.keyword? "await").getD next))
    | "while" | "with" => do g.substatement? (← g.parenthesized? next)
    | "do" => do
      let after ← g.substatement? next
      let closed ← g.parenthesized? (← after.keyword? "while")
      pure (closed.skipMark ";")
    | "switch" => do
      let body ← (← g.parenthesized? next).mark? "\x7b"
      (repeated g.switchCase? body.left body).mark? "\x7d"
    | "try" => g.tryStatement? next
    | "return" | "throw" =>
      match next.semicolon? with
      | some after => some after
      | none => (g.sequence .plain next).bind Cursor.semicolon?
    | "break" | "continue" | "debugger" =>
      match next.semicolon? with
      | some after => some after
      | none => (next.readWord).bind fun (_, after) => after.semicolon?
    | _ => (next.mark? ":").bind g.substatement?

/-- Past a statement that declares nothing for types. -/
def otherStatement? (g : Grammar) : Recogniser := fun c =>
  match (c.mark? ";").or (g.block? c) with
  | some after => some after
  | none => [g.ambient?, g.otherDeclaration?, g.control?].findSome? (· c) |>.or
    ((g.sequence .plain c).bind Cursor.semicolon?)

/-- A statement of any form; decorators may stand before an export. -/
def anyStatement (g : Grammar) : Reader Statement := fun c =>
  let decorated := g.skipDecorators c
  if decorated.isWord "export" then g.exportStatement decorated
  else match (if c.isWord "import" then g.importStatement c else none) with
  | some found => some found
  | none => match g.declaration c with
  | some (d, after) => some (.declaration d, after)
  | none => (g.otherStatement? c).map (.other, ·)

end Grammar

end PropSchema.TypeScript
