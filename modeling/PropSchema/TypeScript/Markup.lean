import PropSchema.TypeScript.Types
/-!
Markup elements in expressions. Text between tags is not made of lexemes, so the cursor is left
just behind a tag there, and only the caller passes over blanks.
-/
namespace PropSchema.TypeScript

/-- Past the rest of the name of a tag or attribute, in which hyphens, dots and colons join. -/
def tagNameRest? : Recogniser := fun c =>
  match (c.mark? "-").or ((c.mark? ".").or (c.mark? ":")) with
  | some next => (next.readWord.map (·.2)).or (some next)
  | none => none

def tagName? : Recogniser := fun c => do
  let (_, after) ← c.readWord
  pure (repeated tagNameRest? after.left after)

/-- Past a quoted attribute value; it has no escapes and may run over lines. -/
def attributeString? : Recogniser := fun c =>
  match c.rest with
  | quote :: rest =>
    if quote == '"' || quote == '\'' then
      let length := (rest.takeWhile (· != quote)).length
      if length < rest.length then some (Cursor.steps (length + 2) c).settle else none
    else none
  | [] => none

namespace Grammar

/-- An expression in braces, perhaps spread or empty; the cursor is left at the closing brace. -/
def markupHole? (g : Grammar) : Recogniser := fun c => do
  let next := ((← c.mark? "\x7b").skipMark "...")
  let after ← if next.startsWith "\x7d" then some next else g.sequence .plain next
  if after.startsWith "\x7d" then some after else none

def attribute? (g : Grammar) (element : Recogniser) : Recogniser := fun c =>
  if c.startsWith "\x7b" then do (← g.markupHole? c).mark? "\x7d"
  else do
    let named ← tagName? c
    match named.mark? "=" with
    | none => some named
    | some value =>
      if value.startsWith "\x7b" then do (← g.markupHole? value).mark? "\x7d"
      else if value.startsWith "<" then (element value).map Cursor.settle
      else attributeString? value

/-- Past what stands between tags, up to and with the closing one. -/
def childrenRest? (g : Grammar) (element : Recogniser) : Nat → Recogniser
  | 0, _ => none
  | fuel + 1, c =>
    match c.rest with
    | '<' :: _ =>
      let closing : Option Cursor := do
        let next ← (← c.mark? "<").mark? "/"
        let named := (tagName? next).getD next
        if named.startsWith ">" then some named.step else none
      match closing with
      | some after => some after
      | none => (element c).bind (childrenRest? g element fuel)
    | '{' :: _ => (g.markupHole? c).bind fun after => childrenRest? g element fuel after.step
    | _ :: _ => childrenRest? g element fuel c.step
    | [] => none

/-- Past one element, as deep as the fuel reaches; the cursor is left just behind it. -/
def elementTo? (g : Grammar) : Nat → Recogniser
  | 0, _ => none
  | depth + 1, c => do
    let next ← c.mark? "<"
    let named := match tagName? next with
      | none => next
      | some after => match g.typeArgumentsIfAny after with
        | some (_, typed) => typed
        | none => after
    let tag := repeated (g.attribute? (elementTo? g depth)) named.left named
    match tag.mark? "/" with
    | some closing => if closing.startsWith ">" then some closing.step else none
    | none =>
      if tag.startsWith ">" then g.childrenRest? (elementTo? g depth) tag.left tag.step else none

/-- Past an element of markup. -/
def element? (g : Grammar) : Recogniser := fun c => (g.elementTo? c.left c).map Cursor.settle

end Grammar

end PropSchema.TypeScript
