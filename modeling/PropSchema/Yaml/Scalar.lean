import PropSchema.Yaml.Cursor
/-!
The scalars of YAML: plain, quoted, and in blocks. Each reader gives the text that a scalar stands
for and the place behind it, or refuses.
-/
namespace PropSchema.Yaml

def isHexDigit (c : Char) : Bool :=
  ('0' ≤ c && c ≤ '9') || ('a' ≤ c && c ≤ 'f') || ('A' ≤ c && c ≤ 'F')

def hexValue (cs : List Char) : Nat :=
  cs.foldl (fun n c =>
    n * 16 + (if c ≤ '9' then c.toNat - 48 else if c ≤ 'F' then c.toNat - 55 else c.toNat - 87)) 0

/-- The character of a code point, if there is one; surrogates read as the replacement character. -/
def charOfCode (n : Nat) : Option Char :=
  if 0x110000 ≤ n then none
  else if 0xD800 ≤ n && n ≤ 0xDFFF then some '\uFFFD'
  else some (Char.ofNat n)

namespace Cursor

/-- How a fold of lines reads: a single break is a blank, and of several the first is left out. -/
def folded (first : List Char) (more : List Char) : List Char :=
  if first != ['\n'] then first ++ more else if more.isEmpty then [' '] else more

/-- The breaks and blanks between two lines of a plain scalar; a document mark ends the scalar. -/
def plainBreaks : Nat → List Char → Cursor → Option (List Char) × Cursor
  | 0, breaks, c => (some breaks, c)
  | fuel + 1, breaks, c =>
    if c.peek? == some ' ' then plainBreaks fuel breaks c.step
    else if c.atBreak then
      let (one, next) := c.lineBreak
      if next.atDocumentMark then (none, next) else plainBreaks fuel (breaks ++ one) next
    else (some breaks, c)

/-- What stands between two words of a plain scalar, and whether there was a line break. -/
def plainSpaces (c : Cursor) : List Char × Bool × Cursor :=
  let (blanks, next) := c.span (· == ' ')
  if next.atBreak then
    let (first, after) := next.lineBreak
    if after.atDocumentMark then ([], true, after)
    else
      match plainBreaks after.rest.length [] after with
      | (none, last) => ([], true, last)
      | (some more, last) => (folded first more, true, last)
  else (blanks, false, next)

/-- Whether a plain scalar ends before the next character. -/
def endsPlain (inFlow : Bool) (cs : List Char) : Bool :=
  match cs with
  | [] => true
  | c :: rest =>
    endsWord (some c) ||
      (c == ':' && (endsWord rest.head? || (inFlow && rest.head?.any fun d => ",[]\x7b\x7d".toList.contains d))) ||
      (inFlow && ",?[]\x7b\x7d".toList.contains c)

def plainLength (inFlow : Bool) : List Char → Nat
  | [] => 0
  | c :: rest => if endsPlain inFlow (c :: rest) then 0 else plainLength inFlow rest + 1

/--
A plain scalar whose further lines are indented by `indent` at least, with the blanks before the
next word; the flag tells whether the last thing passed was a line break.
-/
def plain (inFlow : Bool) (indent : Int) :
    Nat → List Char → List Char → Bool → Cursor → List Char × Bool × Cursor
  | 0, text, _, broken, c => (text, broken, c)
  | fuel + 1, text, spaces, broken, c =>
    let length := plainLength inFlow c.rest
    if c.peek? == some '#' || length == 0 then (text, broken, c)
    else
      let text := text ++ spaces ++ c.rest.take length
      let (spaces, broken, next) := (steps length c).plainSpaces
      if spaces.isEmpty || next.peek? == some '#' || (!inFlow && (next.column : Int) < indent) then
        (text, broken, next)
      else plain inFlow indent fuel text spaces broken next

/-- The breaks between two lines of a quoted scalar, refused at a document mark. -/
def quotedBreaks : Nat → List Char → Cursor → Option (List Char × Cursor)
  | 0, _, _ => none
  | fuel + 1, breaks, c =>
    if c.atDocumentMark then none
    else
      let (_, next) := c.span fun ch => ch == ' ' || ch == '\t'
      if next.atBreak then
        let (one, after) := next.lineBreak
        quotedBreaks fuel (breaks ++ one) after
      else some (breaks, next)

/-- The character that an escape of one letter stands for. -/
def escaped? (c : Char) : Option Char :=
  [('0', '\x00'), ('a', '\x07'), ('b', '\x08'), ('t', '\t'), ('\t', '\t'), ('n', '\n'),
   ('v', '\x0b'), ('f', '\x0c'), ('r', '\r'), ('e', '\x1b'), (' ', ' '), ('"', '"'),
   ('\\', '\\'), ('/', '/'), ('N', '\u0085'), ('_', '\u00a0'), ('L', '\u2028'),
   ('P', '\u2029')].lookup c

/-- How many hexadecimal digits an escape takes. -/
def escapeDigits? (c : Char) : Option Nat := [('x', 2), ('u', 4), ('U', 8)].lookup c

/-- What an escape in double quotes stands for, given the place behind its backslash. -/
def escape (c : Cursor) : Option (List Char × Cursor) := do
  let ch ← c.peek?
  match escaped? ch with
  | some found => pure ([found], c.step)
  | none => match escapeDigits? ch with
  | some n =>
    let digits := (c.rest.drop 1).take n
    if digits.length == n && digits.all isHexDigit then
      pure ([← charOfCode (hexValue digits)], steps (n + 1) c)
    else none
  | none =>
    if isBreak ch then quotedBreaks c.rest.length [] c.lineBreak.2 else none

/-- A quoted scalar behind its opening quote. -/
def quoted (double : Bool) : Nat → List Char → Cursor → Option (List Char × Cursor)
  | 0, _, _ => none
  | fuel + 1, text, c =>
    match c.rest with
    | [] => none
    | '\'' :: '\'' :: _ =>
      if double then quoted double fuel (text ++ ['\'']) c.step
      else quoted double fuel (text ++ ['\'']) (steps 2 c)
    | '\'' :: _ => if double then quoted double fuel (text ++ ['\'']) c.step else some (text, c.step)
    | '"' :: _ => if double then some (text, c.step) else quoted double fuel (text ++ ['"']) c.step
    | '\\' :: _ =>
      if double then do
        let (chars, next) ← c.step.escape
        quoted double fuel (text ++ chars) next
      else quoted double fuel (text ++ ['\\']) c.step
    | ch :: _ =>
      if endsWord (some ch) then do
        let (blanks, next) := c.span fun ch => ch == ' ' || ch == '\t'
        if next.atBreak then
          let (first, after) := next.lineBreak
          let (more, last) ← quotedBreaks (after.rest.length + 1) [] after
          quoted double fuel (text ++ folded first more) last
        else if next.rest.isEmpty then none
        else quoted double fuel (text ++ blanks) next
      else quoted double fuel (text ++ [ch]) c.step

/-- What becomes of the line breaks at the end of a block scalar. -/
inductive Chomping where
  | strip
  | clip
  | keep
  deriving DecidableEq

def chomping? (c : Cursor) : Option (Chomping × Cursor) :=
  match c.peek? with
  | some '+' => some (.keep, c.step)
  | some '-' => some (.strip, c.step)
  | _ => none

/-- A digit from one to nine that gives the indentation. -/
def indentation? (c : Cursor) : Option (Option (Nat × Cursor)) :=
  match c.peek? with
  | some d =>
    if d == '0' then none
    else if '1' ≤ d && d ≤ '9' then some (some (d.toNat - 48, c.step))
    else some none
  | none => some none

/-- The header of a block scalar: its chomping and its indentation, in either order. -/
def blockHeader (c : Cursor) : Option (Chomping × Option Nat × Cursor) := do
  let (chomping, increment, next) ← match c.chomping? with
    | some (chomping, next) => match ← next.indentation? with
      | some (n, after) => some (chomping, some n, after)
      | none => some (chomping, none, next)
    | none => match ← c.indentation? with
      | some (n, next) => match next.chomping? with
        | some (chomping, after) => some (chomping, some n, after)
        | none => some (.clip, some n, next)
      | none => some (.clip, none, c)
  if !(endsLine next.peek? || next.peek? == some ' ') then none
  else
    let blank := next.skipBlanks
    let commented :=
      if blank.peek? == some '#' then (blank.span fun ch => !isBreak ch).2 else blank
    if endsLine commented.peek? then some (chomping, increment, commented.lineBreak.2) else none

/-- The breaks before a block scalar whose indentation is not given, and its deepest indentation. -/
def blockStart : Nat → List Char → Nat → Cursor → List Char × Nat × Cursor
  | 0, breaks, deepest, c => (breaks, deepest, c)
  | fuel + 1, breaks, deepest, c =>
    if c.peek? == some ' ' then blockStart fuel breaks (max deepest c.step.column) c.step
    else if c.atBreak then
      let (one, next) := c.lineBreak
      blockStart fuel (breaks ++ one) deepest next
    else (breaks, deepest, c)

/-- Past blanks up to an indentation. -/
def skipIndent (indent : Nat) (c : Cursor) : Cursor :=
  let blanks := (c.rest.takeWhile (· == ' ')).length
  steps (min blanks (indent - c.column)) c

/-- The breaks between two lines of a block scalar. -/
def blockBreaks (indent : Nat) : Nat → List Char → Cursor → List Char × Cursor
  | 0, breaks, c => (breaks, c)
  | fuel + 1, breaks, c =>
    let start := c.skipIndent indent
    if start.atBreak then
      let (one, next) := start.lineBreak
      blockBreaks indent fuel (breaks ++ one) next
    else (breaks, start)

/-- The lines of a block scalar, with the break after the last one and the breaks behind it. -/
def blockLines (isFolded : Bool) (indent : Nat) :
    Nat → List Char → List Char → Cursor → List Char × List Char × List Char × Cursor
  | 0, text, breaks, c => (text, [], breaks, c)
  | fuel + 1, text, breaks, c =>
    if c.column != indent || c.rest.isEmpty then (text, [], breaks, c)
    else
      let isBlank (ch : Option Char) : Bool := ch == some ' ' || ch == some '\t'
      let (line, ended) := c.span fun ch => !isBreak ch
      let text := text ++ breaks ++ line
      let (lineBreak, next) := ended.lineBreak
      let (breaks, after) := blockBreaks indent next.rest.length [] next
      if after.column == indent && !after.rest.isEmpty then
        if isFolded && lineBreak == ['\n'] && !isBlank c.peek? && !isBlank after.peek? then
          blockLines isFolded indent fuel (if breaks.isEmpty then text ++ [' '] else text) breaks
            after
        else blockLines isFolded indent fuel (text ++ lineBreak) breaks after
      else (text, lineBreak, breaks, after)

/-- A block scalar behind its mark, where the block around it is indented by `around`. -/
def block (isFolded : Bool) (around : Int) (c : Cursor) : Option (List Char × Cursor) := do
  let (chomping, increment, start) ← c.blockHeader
  let least := max 1 (around + 1).toNat
  let (breaks, indent, first) := match increment with
    | none =>
      let (breaks, deepest, first) := blockStart start.rest.length [] 0 start
      (breaks, max least deepest, first)
    | some n =>
      let indent := least + n - 1
      let (breaks, first) := blockBreaks indent start.rest.length [] start
      (breaks, indent, first)
  let (text, last, breaks, after) := blockLines isFolded indent (first.rest.length + 1) [] breaks first
  let text := match chomping with
    | .strip => text
    | .clip => text ++ last
    | .keep => text ++ last ++ breaks
  pure (text, after)

end Cursor

end PropSchema.Yaml
