import PropSchema.Yaml.Scalar
/-!
The tokens of a YAML text. A colon may turn what was read before it on its line into a key, so a
place where a key may begin is kept until the colon is found or can no longer follow. Indentation
opens and closes block collections.
-/
namespace PropSchema.Yaml

inductive Token where
  | version (major : Nat)
  | tagHandle (handle leading : String)
  | otherDirective
  | documentStart
  | documentEnd
  | blockSequence
  | blockMapping
  | blockEnd
  | openSequence
  | closeSequence
  | openMapping
  | closeMapping
  | entry
  | comma
  | key
  | value
  | reference (name : String)
  | anchor (name : String)
  | tag (handle : Option String) (suffix : String)
  | scalar (text : String) (isPlain : Bool)
  deriving DecidableEq, Inhabited

/-- A place where a key may have begun, and the number of tokens before it. -/
structure KeyStart where
  level : Nat
  tokens : Nat
  required : Bool
  index : Nat
  line : Nat
  column : Nat

/-- The state of reading tokens. -/
structure Lexer where
  cursor : Cursor
  tokens : Array Token
  /-- How many flow collections are open. -/
  level : Nat
  /-- The column of the innermost block collection; minus one if there is none. -/
  indent : Int
  /-- The columns of the block collections around it. -/
  outer : List Int
  /-- Whether a key may begin here. -/
  keyAllowed : Bool
  keys : List KeyStart

namespace Lexer

def ofText (text : List Char) : Lexer := ⟨.ofText text, #[], 0, -1, [], true, []⟩

def inFlow (x : Lexer) : Bool := x.level != 0

def emit (x : Lexer) (t : Token) : Lexer := { x with tokens := x.tokens.push t }

def move (x : Lexer) (c : Cursor) : Lexer := { x with cursor := c }

/-- A token of so many characters. -/
def emitMark (x : Lexer) (t : Token) (n : Nat) : Lexer := (x.emit t).move (Cursor.steps n x.cursor)

/-- Past blanks, comments and line breaks; a new line in a block may begin with a key. -/
def skipSpacing : Nat → Lexer → Lexer
  | 0, x => x
  | fuel + 1, x =>
    let blank := x.cursor.skipBlanks
    let start :=
      if blank.peek? == some '#' then (blank.span fun ch => !isBreak ch).2 else blank
    if start.atBreak then
      skipSpacing fuel { x with cursor := start.lineBreak.2, keyAllowed := x.keyAllowed || !x.inFlow }
    else x.move start

/-- Without the keys that can no longer get their colon; a required one is missed. -/
def dropStaleKeys (x : Lexer) : Option Lexer :=
  let isStale (k : KeyStart) : Bool := k.line != x.cursor.line || 1024 < x.cursor.index - k.index
  if x.keys.any fun k => isStale k && k.required then none
  else some { x with keys := x.keys.filter fun k => !isStale k }

/-- Without the key that may have begun at this level. -/
def dropKey (x : Lexer) : Option Lexer :=
  if x.keys.any fun k => k.level == x.level && k.required then none
  else some { x with keys := x.keys.filter fun k => k.level != x.level }

/-- Keeps this place, if a key may begin here. -/
def keepKey (x : Lexer) : Option Lexer :=
  if !x.keyAllowed then some x
  else do
    let required := !x.inFlow && x.indent == x.cursor.column
    let x ← x.dropKey
    pure { x with
      keys := ⟨x.level, x.tokens.size, required, x.cursor.index, x.cursor.line, x.cursor.column⟩ ::
        x.keys }

/-- Closes the block collections that are indented deeper than a column. -/
def unwind (column : Int) : Nat → Lexer → Lexer
  | 0, x => x
  | fuel + 1, x =>
    if x.inFlow || x.indent ≤ column then x
    else
      unwind column fuel { x.emit .blockEnd with
        indent := x.outer.headD (-1), outer := x.outer.tail }

def unwindTo (x : Lexer) (column : Int) : Lexer := x.unwind column (x.outer.length + 1)

/-- Whether a column opens a block collection, which is opened then. -/
def openBlock (x : Lexer) (column : Nat) : Bool × Lexer :=
  if x.indent < column then (true, { x with indent := column, outer := x.indent :: x.outer })
  else (false, x)

def openBlockWith (x : Lexer) (column : Nat) (t : Token) : Lexer :=
  match x.openBlock column with
  | (true, x) => x.emit t
  | (false, x) => x

def allowKey (x : Lexer) (allowed : Bool) : Lexer := { x with keyAllowed := allowed }

/-- Characters of the names of directives, anchors and tag handles. -/
def isNameChar (c : Char) : Bool := c.isAlphanum || c == '-' || c == '_'

/-- Characters of tags, escapes apart. -/
def isTagChar (c : Char) : Bool := c.isAlphanum || "-;/?:@&=+$,_.!~*'()[]".toList.contains c

/-- The part of a tag without its handle; escapes give bytes of UTF-8. -/
def tagChars : Nat → List UInt8 → Cursor → List UInt8 × Cursor
  | 0, bytes, c => (bytes, c)
  | fuel + 1, bytes, c =>
    match c.rest with
    | '%' :: a :: b :: _ =>
      if isHexDigit a && isHexDigit b then
        tagChars fuel (bytes ++ [(hexValue [a, b]).toUInt8]) (Cursor.steps 3 c)
      else (bytes, c)
    | ch :: _ =>
      if isTagChar ch then tagChars fuel (bytes ++ ch.toString.toUTF8.toList) c.step else (bytes, c)
    | [] => (bytes, c)

def tagSuffix (c : Cursor) : Option (String × Cursor) := do
  let (bytes, next) := tagChars c.rest.length [] c
  if bytes.isEmpty || next.peek? == some '%' then none
  else pure (← String.fromUTF8? (ByteArray.mk bytes.toArray), next)

/-- A tag handle: one exclamation mark, or a name between two. -/
def tagHandle (c : Cursor) : Option (String × Cursor) := do
  if c.peek? != some '!' then none
  let (name, next) := c.step.span isNameChar
  if next.peek? == some '!' then pure ("!" ++ String.ofList name ++ "!", next.step)
  else if name.isEmpty && next.peek? == some ' ' then pure ("!", next)
  else none

/-- Past the rest of a line that may hold nothing but a comment. -/
def lineRest (c : Cursor) : Option Cursor :=
  let blank := c.skipBlanks
  let start := if blank.peek? == some '#' then (blank.span fun ch => !isBreak ch).2 else blank
  if endsLine start.peek? then some start.lineBreak.2 else none

/-- The value of a directive that gives the version. -/
def versionValue (c : Cursor) : Option (Token × Cursor) := do
  let (major, next) := c.skipBlanks.span Char.isDigit
  if major.isEmpty || next.peek? != some '.' then none
  let (minor, after) := next.step.span Char.isDigit
  if minor.isEmpty || !(endsLine after.peek? || after.peek? == some ' ') then none
  pure (.version ((String.ofList major).toNat?.getD 0), after)

/-- The value of a directive that names tags. -/
def tagValue (c : Cursor) : Option (Token × Cursor) := do
  let (handle, next) ← tagHandle c.skipBlanks
  if next.peek? != some ' ' || handle == "" then none
  let (leading, after) ← tagSuffix next.skipBlanks
  if endsLine after.peek? || after.peek? == some ' ' then pure (.tagHandle handle leading, after)
  else none

def directive (x : Lexer) : Option Lexer := do
  let x ← (x.unwindTo (-1)).dropKey
  let (name, next) := x.cursor.step.span isNameChar
  if name.isEmpty || !(endsLine next.peek? || next.peek? == some ' ') then none
  let (token, after) ←
    if name == "YAML".toList then versionValue next
    else if name == "TAG".toList then tagValue next
    else some (.otherDirective, (next.span fun ch => !isBreak ch).2)
  pure (((x.emit token).allowKey false).move (← lineRest after))

def documentMark (x : Lexer) (t : Token) : Option Lexer := do
  let x ← (x.unwindTo (-1)).dropKey
  pure ((x.emitMark t 3).allowKey false)

def openFlow (x : Lexer) (t : Token) : Option Lexer := do
  let x ← x.keepKey
  pure { (x.emitMark t 1).allowKey true with level := x.level + 1 }

def closeFlow (x : Lexer) (t : Token) : Option Lexer := do
  let x ← x.dropKey
  pure { (x.emitMark t 1).allowKey false with level := x.level - 1 }

def commaToken (x : Lexer) : Option Lexer := do
  let x ← x.dropKey
  pure ((x.emitMark .comma 1).allowKey true)

def entryToken (x : Lexer) : Option Lexer := do
  let x ←
    if x.inFlow then some x
    else if !x.keyAllowed then none
    else some (x.openBlockWith x.cursor.column .blockSequence)
  let x ← x.dropKey
  pure ((x.emitMark .entry 1).allowKey true)

def keyToken (x : Lexer) : Option Lexer := do
  let x ←
    if x.inFlow then some x
    else if !x.keyAllowed then none
    else some (x.openBlockWith x.cursor.column .blockMapping)
  let x ← x.dropKey
  pure ((x.emitMark .key 1).allowKey !x.inFlow)

/-- A colon, which makes a key of what began at a place that was kept. -/
def valueToken (x : Lexer) : Option Lexer :=
  match x.keys.find? fun k => k.level == x.level with
  | some k =>
    let x := { x with keys := x.keys.filter fun k => k.level != x.level }
    let (opened, x) := if x.inFlow then (false, x) else x.openBlock k.column
    let before := (x.tokens.take k.tokens).push .key
    let before := if opened then (x.tokens.take k.tokens).push .blockMapping |>.push .key else before
    let x := { x with tokens := before ++ x.tokens.drop k.tokens }
    some ((x.emitMark .value 1).allowKey false)
  | none =>
    if !x.inFlow && !x.keyAllowed then none
    else do
      let x := if x.inFlow then x else x.openBlockWith x.cursor.column .blockMapping
      let x ← (x.allowKey !x.inFlow).dropKey
      pure (x.emitMark .value 1)

/-- An alias or anchor behind its mark. -/
def nameToken (x : Lexer) (make : String → Token) : Option Lexer := do
  let x ← x.keepKey
  let (name, next) := x.cursor.step.span isNameChar
  let ended := endsWord next.peek? || next.peek?.any fun c => "?:,]\x7d%@\x60".toList.contains c
  if name.isEmpty || !ended then none
  else pure (((x.emit (make (String.ofList name))).allowKey false).move next)

/-- The text of a tag: in angle brackets, a lone mark, or a handle with a suffix. -/
def tagText (c : Cursor) : Option (Token × Cursor) := do
  let next := c.step
  if next.peek? == some '<' then
    let (suffix, after) ← tagSuffix next.step
    if after.peek? == some '>' then pure (.tag none suffix, after.step) else none
  else if endsWord next.peek? then pure (.tag none "!", next)
  else
    let handled := (next.rest.takeWhile fun ch => !(ch == ' ' || isBreak ch)).contains '!'
    let (handle, start) ← if handled then tagHandle c else some ("!", next)
    let (suffix, after) ← tagSuffix start
    pure (.tag (some handle) suffix, after)

def tagToken (x : Lexer) : Option Lexer := do
  let x ← x.keepKey
  let (token, next) ← tagText x.cursor
  if endsLine next.peek? || next.peek? == some ' ' then
    pure (((x.emit token).allowKey false).move next)
  else none

def blockToken (x : Lexer) (isFolded : Bool) : Option Lexer := do
  let x ← (x.allowKey true).dropKey
  let (text, next) ← x.cursor.step.block isFolded x.indent
  pure ((x.emit (.scalar (String.ofList text) false)).move next)

def quotedToken (x : Lexer) (double : Bool) : Option Lexer := do
  let x ← x.keepKey
  let start := x.cursor.step
  let (text, next) ← start.quoted double (start.rest.length + 1) []
  pure (((x.emit (.scalar (String.ofList text) false)).allowKey false).move next)

def plainToken (x : Lexer) : Option Lexer := do
  let x ← x.keepKey
  let (text, broken, next) :=
    x.cursor.plain x.inFlow (x.indent + 1) (x.cursor.rest.length + 1) [] [] false
  pure (((x.emit (.scalar (String.ofList text) true)).allowKey broken).move next)

/-- Whether a plain scalar may begin here. -/
def beginsPlain (x : Lexer) (ch : Char) : Bool :=
  let special := "-?:,[]\x7b\x7d#&*!|>'\"%@\x60".toList
  let follows := !endsWord (x.cursor.ahead? 1)
  (!endsWord (some ch) && !special.contains ch) ||
    (follows && (ch == '-' || (!x.inFlow && (ch == '?' || ch == ':'))))

/-- The next token, with the block ends before it; the flag tells that the text has ended. -/
def next (x : Lexer) : Option (Bool × Lexer) := do
  let x ← (x.skipSpacing (x.cursor.rest.length + 1)).dropStaleKeys
  let x := x.unwindTo x.cursor.column
  let c := x.cursor
  let spaced := endsWord (c.ahead? 1)
  match c.peek? with
  | none => do
    let x ← (x.unwindTo (-1)).dropKey
    pure (true, x)
  | some ch =>
    let read : Option Lexer :=
      if c.column == 0 && ch == '%' then x.directive
      else if c.column == 0 && c.atDocumentMark then
        x.documentMark (if ch == '-' then .documentStart else .documentEnd)
      else match ch with
      | '[' => x.openFlow .openSequence
      | '{' => x.openFlow .openMapping
      | ']' => x.closeFlow .closeSequence
      | '}' => x.closeFlow .closeMapping
      | ',' => x.commaToken
      | '*' => x.nameToken .reference
      | '&' => x.nameToken .anchor
      | '!' => x.tagToken
      | '\'' => x.quotedToken false
      | '"' => x.quotedToken true
      | _ =>
        if ch == '-' && spaced then x.entryToken
        else if ch == '?' && (x.inFlow || spaced) then x.keyToken
        else if ch == ':' && (x.inFlow || spaced) then x.valueToken
        else if ch == '|' && !x.inFlow then x.blockToken false
        else if ch == '>' && !x.inFlow then x.blockToken true
        else if x.beginsPlain ch then x.plainToken
        else none
    read.map fun x => (false, x)

/-- All tokens up to the end of the text. -/
def all : Nat → Lexer → Option (List Token)
  | 0, _ => none
  | fuel + 1, x => do
    match ← x.next with
    | (true, x) => pure x.tokens.toList
    | (false, x) => all fuel x

end Lexer

/-- The tokens of a text, none if it breaks the rules of lexemes. -/
def tokens? (text : List Char) : Option (List Token) :=
  if !text.all isPrintable then none
  else
    let start := Lexer.ofText text
    let start := if text.head?.any fun c => c.toNat == 0xFEFF then start.move start.cursor.step else start
    Lexer.all (text.length + 1) start

end PropSchema.Yaml
