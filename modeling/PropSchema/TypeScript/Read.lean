import PropSchema.TypeScript.Statements
/-!
Reading a module from its text. The grammar is unrolled to a depth that no phrase of the text
exceeds, for each level passes over a character at least every fourth time.
-/
namespace PropSchema.TypeScript

namespace Grammar

/-- The grammar whose phrases contain phrases of the grammar before. -/
def next (g : Grammar) : Grammar where
  markup := g.markup
  expression := g.value
  typeExpr := g.anyType
  pattern := g.bindingPattern?
  classDecl := g.classDeclaration
  statement := g.anyStatement

/-- The grammar whose phrases nest no deeper than a number of levels. -/
def ofDepth (markup : Bool) : Nat → Grammar
  | 0 => ⟨markup, fun _ _ => none, fun _ _ => none, fun _ => none, fun _ => none, fun _ => none⟩
  | n + 1 => next
    { markup
      expression := fun s c => (ofDepth markup n).expression s c
      typeExpr := fun stops c => (ofDepth markup n).typeExpr stops c
      pattern := fun c => (ofDepth markup n).pattern c
      classDecl := fun c => (ofDepth markup n).classDecl c
      statement := fun c => (ofDepth markup n).statement c }

end Grammar

/-- The statements of a text; what cannot be read is passed over lexeme by lexeme. -/
def readStatements (g : Grammar) : Nat → Cursor → List Statement
  | 0, _ => []
  | fuel + 1, c =>
    if c.atEnd then []
    else match g.statement c with
    | some (s, after) =>
      if after.left < c.left then s :: readStatements g fuel after
      else readStatements g fuel c.skipLexeme
    | none => readStatements g fuel c.skipLexeme

/-- Whether expressions in the files of a path may hold markup. -/
def hasMarkup (path : String) : Bool :=
  (path.toList.map Char.toLower).reverse.take 4 == "xst.".toList

/-- The module of a path with the given text. -/
def Module.ofText (path text : String) : Module :=
  let cs := text.toList
  let g := Grammar.ofDepth (hasMarkup path) (4 * (cs.length + 4))
  ⟨path, readStatements g (cs.length + 1) (Cursor.ofText cs)⟩

end PropSchema.TypeScript
