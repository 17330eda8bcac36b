import PropSchema.Json
/-!
Reading JSON text. Of two fields with one name the last value counts, integers are exact, and a
number with point or exponent is a binary64 number. The tolerant dialect also reads `NaN`,
`Infinity` and `-Infinity`, but no integer of more digits than can be written. Strings are made of
characters, and half a surrogate pair is none: it is read as the replacement character, or not at
all.
-/
namespace PropSchema.Json

/-- Which texts are read, of those that are well-formed and beyond. -/
structure Dialect where
  /-- The names of the special numbers are read. -/
  specials : Bool
  /-- Integers are read however many digits they have. -/
  longIntegers : Bool
  /-- A surrogate that is not in a pair is read, for the replacement character. -/
  loneSurrogates : Bool

def Dialect.standard : Dialect := ⟨false, true, true⟩
def Dialect.tolerant : Dialect := ⟨true, false, true⟩

/-- The tolerant dialect for those texts in which each surrogate is in a pair. -/
def Dialect.paired : Dialect := ⟨true, false, false⟩

/-- The digits of an integer, if they are too many for a dialect. -/
def Dialect.excess? (dialect : Dialect) : Numeral → Option Nat
  | .int n =>
    if dialect.longIntegers || Numeral.isWritable n then none
    else some (Binary64.decimalLength n.natAbs)
  | .float _ => none

/-- Why a text is no JSON text. -/
inductive Fault where
  | value
  | propertyName
  | colon
  | comma
  | openString
  | controlCharacter
  | badEscape
  | badUnitEscape
  | extraData
  | byteOrderMark
  | loneSurrogate
  /-- An integer of so many digits. -/
  | tooLong (digits : Nat)
  | tooDeep
  deriving DecidableEq

def Fault.message : Fault → String
  | .value => "Expecting value"
  | .propertyName => "Expecting property name enclosed in double quotes"
  | .colon => "Expecting ':' delimiter"
  | .comma => "Expecting ',' delimiter"
  | .openString => "Unterminated string starting at"
  | .controlCharacter => "Invalid control character at"
  | .badEscape => "Invalid \\escape"
  | .badUnitEscape => "Invalid \\uXXXX escape"
  | .extraData => "Extra data"
  | .byteOrderMark => "Unexpected UTF-8 BOM (decode using utf-8-sig)"
  | .loneSurrogate => "Unpaired surrogate"
  | .tooLong digits => Numeral.tooLongText digits
  | .tooDeep => "Too many nested values"

/-- A fault and how many characters of the text were left where it was met. -/
structure ReadError where
  fault : Fault
  left : Nat
  deriving DecidableEq

/-- The fault with its line, column and offset in the text that was read; of an integer with too
many digits it is not told where it stands. -/
def ReadError.message (text : List Char) (e : ReadError) : String :=
  let offset := text.length - e.left
  let before := text.take offset
  let line := (before.filter (· == '\n')).length + 1
  let column := (before.reverse.takeWhile (· != '\n')).length + 1
  match e.fault with
  | .tooLong digits => Numeral.tooLongText digits
  | fault => s!"{fault.message}: line {line} column {column} (char {offset})"

def isSpace (c : Char) : Bool := c == ' ' || c == '\t' || c == '\n' || c == '\r'

def skipSpace (cs : List Char) : List Char := cs.dropWhile isSpace

def failAt {α : Type} (fault : Fault) (cs : List Char) : Except ReadError α :=
  .error ⟨fault, cs.length⟩

def hexValue? (c : Char) : Option Nat :=
  if '0' ≤ c ∧ c ≤ '9' then some (c.toNat - '0'.toNat)
  else if 'a' ≤ c ∧ c ≤ 'f' then some (c.toNat - 'a'.toNat + 10)
  else if 'A' ≤ c ∧ c ≤ 'F' then some (c.toNat - 'A'.toNat + 10)
  else none

/-- The UTF-16 unit of four hexadecimal digits. -/
def unit? (a b c d : Char) : Option Nat := do
  let a ← hexValue? a
  let b ← hexValue? b
  let c ← hexValue? c
  let d ← hexValue? d
  pure (((a * 16 + b) * 16 + c) * 16 + d)

def simpleEscape? : Char → Option Char
  | '"' => some '"'
  | '\\' => some '\\'
  | '/' => some '/'
  | 'b' => some '\x08'
  | 'f' => some '\x0c'
  | 'n' => some '\n'
  | 'r' => some '\r'
  | 't' => some '\t'
  | _ => none

/-- The units of a string up to its closing quote, and what follows the quote. -/
def stringUnits (opening : Nat) : List Char → Except ReadError (List Nat × List Char)
  | [] => .error ⟨.openString, opening⟩
  | '"' :: rest => .ok ([], rest)
  | '\\' :: 'u' :: a :: b :: c :: d :: rest =>
    match unit? a b c d with
    | none => failAt .badUnitEscape (a :: b :: c :: d :: rest)
    | some n => do
      let (ns, after) ← stringUnits opening rest
      pure (n :: ns, after)
  | '\\' :: e :: rest =>
    match simpleEscape? e with
    | none => if e == 'u' then failAt .badUnitEscape rest else failAt .badEscape ('\\' :: e :: rest)
    | some c => do
      let (ns, after) ← stringUnits opening rest
      pure (c.toNat :: ns, after)
  | c :: rest =>
    if c.toNat < 0x20 then failAt .controlCharacter (c :: rest)
    else do
      let (ns, after) ← stringUnits opening rest
      pure (c.toNat :: ns, after)

def isHighUnit (n : Nat) : Bool := 0xD800 ≤ n && n < 0xDC00
def isLowUnit (n : Nat) : Bool := 0xDC00 ≤ n && n < 0xE000

/-- The character of a unit, if it is no surrogate. -/
def unitChar? (n : Nat) : Option Char :=
  if isHighUnit n || isLowUnit n then none else some (Char.ofNat n)

/-- Units as characters: a high and a low one make one character, a lone one makes none. -/
def joinUnits : List Nat → List (Option Char)
  | [] => []
  | [n] => [unitChar? n]
  | n :: m :: rest =>
    if isHighUnit n && isLowUnit m then
      some (Char.ofNat (0x10000 + (n - 0xD800) * 0x400 + (m - 0xDC00))) :: joinUnits rest
    else unitChar? n :: joinUnits (m :: rest)

/-- The string that opened just before these characters. -/
def readString (dialect : Dialect) (cs : List Char) : Except ReadError (String × List Char) := do
  let (units, rest) ← stringUnits (cs.length + 1) cs
  let found := joinUnits units
  if !dialect.loneSurrogates && found.any Option.isNone then failAt .loneSurrogate rest
  else pure (String.ofList (found.map (·.getD '\uFFFD')), rest)

def isDigit (c : Char) : Bool := '0' ≤ c && c ≤ '9'

/-- The digits of an integer: zero alone, or digits that do not begin with zero. -/
def integerDigits : List Char → Option (List Char × List Char)
  | '0' :: rest => some (['0'], rest)
  | cs =>
    let run := cs.takeWhile isDigit
    if run.isEmpty then none else some (run, cs.drop run.length)

/-- A point with digits after it. -/
def fractionDigits : List Char → List Char × List Char
  | '.' :: rest =>
    let run := rest.takeWhile isDigit
    if run.isEmpty then ([], '.' :: rest) else (run, rest.drop run.length)
  | cs => ([], cs)

/-- An exponent mark with its sign and digits. -/
def exponentDigits (cs : List Char) : Option (Bool × List Char) × List Char :=
  match cs with
  | c :: rest =>
    if c == 'e' || c == 'E' then
      let (negative, more) := Numeral.splitSign rest
      let run := more.takeWhile isDigit
      if run.isEmpty then (none, cs) else (some (negative, run), more.drop run.length)
    else (none, cs)
  | [] => (none, cs)

def naturalOf (run : List Char) : Nat :=
  run.foldl (fun n c => n * 10 + (c.toNat - '0'.toNat)) 0

/-- A number and what follows it. -/
def readNumber (negative : Bool) (cs : List Char) : Option (Numeral × List Char) := do
  let (whole, rest) ← integerDigits cs
  let (fraction, rest) := fractionDigits rest
  let (exponent, rest) := exponentDigits rest
  if fraction.isEmpty && exponent.isNone then
    pure (.int (Numeral.signed negative (naturalOf whole)), rest)
  else
    let scale := match exponent with
      | none => 0
      | some (down, run) => Numeral.signed down (naturalOf run)
    pure (.float (Binary64.ofDecimal negative (naturalOf (whole ++ fraction))
      (scale - fraction.length)), rest)

/-- What follows a word at the front. -/
def afterWord? (word : String) (cs : List Char) : Option (List Char) :=
  if word.toList.isPrefixOf cs then some (cs.drop word.length) else none

/-- A value that is neither string nor container. -/
def readScalar (dialect : Dialect) (cs : List Char) : Except ReadError (Json × List Char) :=
  match afterWord? "null" cs with
  | some rest => .ok (.null, rest)
  | none => match afterWord? "true" cs with
  | some rest => .ok (.bool true, rest)
  | none => match afterWord? "false" cs with
  | some rest => .ok (.bool false, rest)
  | none => match (if dialect.specials then afterWord? "NaN" cs else none) with
  | some rest => .ok (.float .nan, rest)
  | none => match (if dialect.specials then afterWord? "Infinity" cs else none) with
  | some rest => .ok (.float (.infinite false), rest)
  | none => match (if dialect.specials then afterWord? "-Infinity" cs else none) with
  | some rest => .ok (.float (.infinite true), rest)
  | none =>
    let (negative, digits) := match cs with
      | '-' :: rest => (true, rest)
      | cs => (false, cs)
    match readNumber negative digits with
    | some (n, rest) =>
      match dialect.excess? n with
      | none => .ok (ofNumeral n, rest)
      | some digits => failAt (.tooLong digits) cs
    | none => failAt .value cs

mutual

/-- A value at the front of a text without leading space; the fuel bounds the nesting. -/
def readValue (dialect : Dialect) : Nat → List Char → Except ReadError (Json × List Char)
  | 0, cs => failAt .tooDeep cs
  | fuel + 1, cs =>
    match cs with
    | '"' :: rest => do
      let (s, rest) ← readString dialect rest
      pure (.str s, rest)
    | '[' :: rest =>
      match skipSpace rest with
      | ']' :: rest => pure (.arr [], rest)
      | rest => do
        let (items, rest) ← readItems dialect fuel rest
        pure (.arr items, rest)
    | '{' :: rest =>
      match skipSpace rest with
      | '}' :: rest => pure (.obj [], rest)
      | rest => do
        let (pairs, rest) ← readFields dialect fuel rest
        pure (.obj (Entries.ofPairs pairs), rest)
    | cs => readScalar dialect cs

/-- Items up to the closing bracket. -/
def readItems (dialect : Dialect) : Nat → List Char → Except ReadError (List Json × List Char)
  | 0, cs => failAt .tooDeep cs
  | fuel + 1, cs => do
    let (item, rest) ← readValue dialect fuel cs
    match skipSpace rest with
    | ']' :: rest => pure ([item], rest)
    | ',' :: rest => do
      let (items, rest) ← readItems dialect fuel (skipSpace rest)
      pure (item :: items, rest)
    | rest => failAt .comma rest

/-- Fields up to the closing brace. -/
def readFields (dialect : Dialect) :
    Nat → List Char → Except ReadError (List (String × Json) × List Char)
  | 0, cs => failAt .tooDeep cs
  | fuel + 1, cs => do
    let (name, rest) ← match cs with
      | '"' :: rest => readString dialect rest
      | cs => failAt .propertyName cs
    let rest ← match skipSpace rest with
      | ':' :: rest => pure (skipSpace rest)
      | rest => failAt .colon rest
    let (value, rest) ← readValue dialect fuel rest
    match skipSpace rest with
    | '}' :: rest => pure ([(name, value)], rest)
    | ',' :: rest => do
      let (fields, rest) ← readFields dialect fuel (skipSpace rest)
      pure ((name, value) :: fields, rest)
    | rest => failAt .comma rest

end

/-- The value that a whole text stands for; every value takes a character, which bounds the fuel. -/
def readChars (dialect : Dialect) (cs : List Char) : Except ReadError Json := do
  if cs.head? = some '\uFEFF' then failAt .byteOrderMark cs
  let (value, rest) ← readValue dialect (cs.length + 1) (skipSpace cs)
  match skipSpace rest with
  | [] => pure value
  | rest => failAt .extraData rest

def read (text : String) : Except ReadError Json := readChars .tolerant text.toList

end PropSchema.Json
