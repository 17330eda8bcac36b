import PropSchema.TypeScript.Cursor
/-!
Lexemes of TypeScript. Each reader takes the lexeme at a cursor and leaves the cursor at the next
one. Words are keywords or identifiers by where they stand, so one reader serves both.
-/
namespace PropSchema.TypeScript

/-- A reader gives a value and the cursor behind it, or refuses. -/
abbrev Reader (α : Type) := Cursor → Option (α × Cursor)

/-- A recogniser gives the cursor behind what it accepts, or refuses. -/
abbrev Recogniser := Cursor → Option Cursor

/-- Characters that no identifier contains. -/
def isPunctuation (c : Char) : Bool :=
  c.toNat < 0x20 || isSpacing c || ":;`\"'@#.,|^&<=>+-*/\\%?!~()[]\x7b\x7d".toList.contains c

def isDecimal (c : Char) : Bool := '0' ≤ c && c ≤ '9'

def isHex (c : Char) : Bool :=
  isDecimal c || ('a' ≤ c && c ≤ 'f') || ('A' ≤ c && c ≤ 'F')

/-- The length of a Unicode escape at the front, zero if there is none. -/
def escapeLength : List Char → Nat
  | '\\' :: 'u' :: '{' :: rest =>
    let run := rest.takeWhile isHex
    if !run.isEmpty && (rest.drop run.length).head? == some '}' then run.length + 4 else 0
  | '\\' :: 'u' :: a :: b :: c :: d :: _ => if [a, b, c, d].all isHex then 6 else 0
  | _ => 0

/-- The length of the run of identifier characters at the front. -/
def wordLength : Nat → List Char → Nat
  | 0, _ => 0
  | _ + 1, [] => 0
  | fuel + 1, c :: rest =>
    if !isPunctuation c then wordLength fuel rest + 1
    else
      let n := escapeLength (c :: rest)
      if n == 0 then 0 else wordLength fuel ((c :: rest).drop n) + n

namespace Cursor

/-- The word at the cursor, empty if there is none. -/
def word (c : Cursor) : String :=
  match c.rest with
  | first :: _ =>
    if isDecimal first then "" else String.ofList (c.rest.take (wordLength c.left c.rest))
  | [] => ""

def isWord (c : Cursor) (word : String) : Bool := c.word == word

def hasWord (c : Cursor) : Bool := !c.word.isEmpty

/-- A word, whether keyword or identifier. -/
def readWord : Reader String := fun c =>
  let word := c.word
  if word.isEmpty then none else some (word, (steps word.length c).settle)

/-- Past the given word, if it is next. -/
def keyword? (word : String) (c : Cursor) : Option Cursor :=
  if c.isWord word then some (steps word.length c).settle else none

end Cursor

/-- Words that are no identifiers in an expression. -/
def reservedWords : List String :=
  ["break", "case", "catch", "class", "const", "continue", "debugger", "default", "delete", "do",
   "else", "enum", "export", "extends", "finally", "for", "function", "if", "import", "in",
   "instanceof", "new", "return", "super", "switch", "throw", "try", "typeof", "var", "void",
   "while", "with"]

namespace Cursor

/-- A word that is no reserved one. -/
def readIdentifier : Reader String := fun c =>
  if reservedWords.contains c.word then none else c.readWord

end Cursor

/-- The length of a string literal after its opening quote, the closing quote included. -/
def stringLength (quote : Char) : List Char → Option Nat
  | [] => none
  | '\\' :: '\r' :: '\n' :: rest => (stringLength quote rest).map (· + 3)
  | '\\' :: _ :: rest => (stringLength quote rest).map (· + 2)
  | c :: rest =>
    if c == quote then some 1
    else if c == '\n' || c == '\r' then none
    else (stringLength quote rest).map (· + 1)

namespace Cursor

/-- A string literal with its quotes. -/
def readString : Reader String := fun c =>
  match c.rest with
  | quote :: rest =>
    if quote == '"' || quote == '\'' then do
      let n ← stringLength quote rest
      let after := (steps (n + 1) c).settle
      pure (c.textTo after, after)
    else none
  | [] => none

end Cursor

/-- A string literal without its quotes. -/
def unquoted (text : String) : String := String.ofList (text.toList.drop 1).dropLast

/-- The length of the run of digits at the front, underscores between them included. -/
def digitsLength (p : Char → Bool) (cs : List Char) : Nat :=
  (cs.takeWhile fun c => p c || c == '_').length

/-- The length of an exponent at the front. -/
def exponentLength : List Char → Nat
  | mark :: rest =>
    if mark == 'e' || mark == 'E' then
      match rest with
      | sign :: more =>
        if sign == '+' || sign == '-' then
          let n := digitsLength isDecimal more
          if n == 0 then 0 else n + 2
        else
          let n := digitsLength isDecimal rest
          if n == 0 then 0 else n + 1
      | [] => 0
    else 0
  | [] => 0

/-- The length of a big integer's mark at the front. -/
def bigLength : List Char → Nat
  | 'n' :: _ => 1
  | _ => 0

/-- The length of a number at the front, zero if there is none. -/
def numberLength (cs : List Char) : Nat :=
  let based (p : Char → Bool) (rest : List Char) : Nat :=
    let n := digitsLength p rest
    n + 2 + bigLength (rest.drop n)
  match cs with
  | '0' :: 'x' :: rest => based isHex rest
  | '0' :: 'X' :: rest => based isHex rest
  | '0' :: 'o' :: rest => based isDecimal rest
  | '0' :: 'O' :: rest => based isDecimal rest
  | '0' :: 'b' :: rest => based isDecimal rest
  | '0' :: 'B' :: rest => based isDecimal rest
  | '.' :: rest =>
    let n := digitsLength isDecimal rest
    if n == 0 || rest.head? == some '_' then 0 else n + 1 + exponentLength (rest.drop n)
  | first :: _ =>
    if !isDecimal first then 0
    else
      let whole := digitsLength isDecimal cs
      match cs.drop whole with
      | '.' :: rest =>
        let n := if rest.head? == some '_' then 0 else digitsLength isDecimal rest
        whole + 1 + n + exponentLength (rest.drop n)
      | rest =>
        let n := exponentLength rest
        whole + if n == 0 then bigLength rest else n
  | [] => 0

namespace Cursor

/-- A number as written. -/
def readNumber : Reader String := fun c =>
  let n := numberLength c.rest
  if n == 0 then none
  else some (String.ofList (c.rest.take n), (steps n c).settle)

end Cursor

/-- The length of a regular expression after its opening slash, the closing one included. -/
def regexLength : Bool → List Char → Option Nat
  | _, [] => none
  | inClass, '\\' :: _ :: rest => (regexLength inClass rest).map (· + 2)
  | inClass, c :: rest =>
    if c == '\n' || c == '\r' then none
    else if c == '/' && !inClass then some 1
    else
      let inClass := if c == '[' then true else if c == ']' then false else inClass
      (regexLength inClass rest).map (· + 1)

namespace Cursor

/-- Past a regular expression with its flags. -/
def regex? : Recogniser := fun c =>
  match c.rest with
  | '/' :: rest => do
    let n ← regexLength false rest
    let c := steps (n + 1) c
    pure (c.skipWhile fun ch => !isPunctuation ch).settle
  | _ => none

/-- Past any one lexeme, for going on where nothing is understood. -/
def skipLexeme (c : Cursor) : Cursor :=
  match c.readWord with
  | some (_, after) => after
  | none => match c.readString with
  | some (_, after) => after
  | none => match c.readNumber with
  | some (_, after) => after
  | none => c.step.settle

/-- The end of a statement: a semicolon, or a place where one is understood. -/
def semicolon? : Recogniser := fun c =>
  match c.mark? ";" with
  | some after => some after
  | none => if c.broken || c.atEnd || c.startsWith "\x7d" then some c else none

end Cursor

/-- What a reader finds again and again, until it refuses or stands still. -/
def many {α : Type} (read : Reader α) : Nat → Cursor → List α × Cursor
  | 0, c => ([], c)
  | fuel + 1, c =>
    match read c with
    | none => ([], c)
    | some (a, after) =>
      if after.left < c.left then
        let (more, last) := many read fuel after
        (a :: more, last)
      else ([], c)

/-- As often as a recogniser accepts and moves on. -/
def repeated (accept : Recogniser) : Nat → Cursor → Cursor
  | 0, c => c
  | fuel + 1, c =>
    match accept c with
    | none => c
    | some after => if after.left < c.left then repeated accept fuel after else c

/-- Items separated by commas up to a closing mark; a last comma may stand alone. -/
def commaList {α : Type} (read : Reader α) (closing : String) : Nat → Reader (List α)
  | 0, _ => none
  | fuel + 1, c =>
    match c.mark? closing with
    | some after => some ([], after)
    | none => do
      let (item, after) ← read c
      match after.mark? "," with
      | some next =>
        if next.left < c.left then
          let (items, last) ← commaList read closing fuel next
          pure (item :: items, last)
        else none
      | none =>
        let last ← after.mark? closing
        pure ([item], last)

/-- A recogniser as a reader of nothing. -/
def asReader (accept : Recogniser) : Reader Unit := fun c => (accept c).map ((), ·)

/-- The first reader that does not refuse. -/
def orElse {α : Type} (first second : Reader α) : Reader α := fun c =>
  match first c with
  | some found => some found
  | none => second c

end PropSchema.TypeScript
