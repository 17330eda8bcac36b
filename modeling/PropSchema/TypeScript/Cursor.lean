import PropSchema.TypeScript.Syntax
/-!
A cursor in source text. It stands at the beginning of a lexeme: blanks and comments before it are
already passed, and whether there was a line break among them is remembered, because a line break
may end a statement.
-/
namespace PropSchema.TypeScript

/-- A place in a text, with the text from there on. -/
structure Cursor where
  rest : List Char
  /-- How many characters are left. -/
  left : Nat
  line : Nat
  column : Nat
  /-- There is a line break between the lexeme before and this place. -/
  broken : Bool
  /-- How many characters were left at the end of the lexeme before. -/
  endLeft : Nat
  deriving Inhabited

namespace Cursor

def place (c : Cursor) : Place := ⟨c.line, c.column⟩

/-- Past one character. -/
def step (c : Cursor) : Cursor :=
  match c.rest with
  | [] => c
  | '\n' :: rest => { c with rest, left := c.left - 1, line := c.line + 1, column := 1 }
  | ch :: rest => { c with rest, left := c.left - 1, column := c.column + ch.utf8Size }

def steps : Nat → Cursor → Cursor
  | 0, c => c
  | n + 1, c => steps n c.step

/-- Past the characters that a test holds of. -/
def skipWhile (p : Char → Bool) (c : Cursor) : Cursor := steps (c.rest.takeWhile p).length c

/-- The text from one place to the end of the last lexeme before another. -/
def textTo (c after : Cursor) : String := String.ofList (c.rest.take (c.left - after.endLeft))

end Cursor

/-- Blanks between lexemes. -/
def isSpacing (c : Char) : Bool :=
  let n := c.toNat
  (9 ≤ n && n ≤ 13) || n == 0x20 || n == 0x85 || n == 0xA0 || n == 0x1680 ||
    (0x2000 ≤ n && n ≤ 0x200B) || n == 0x2028 || n == 0x2029 || n == 0x202F || n == 0x205F ||
    n == 0x2060 || n == 0x3000 || n == 0xFEFF

def isLineBreak (c : Char) : Bool :=
  c == '\n' || c == '\r' || c.toNat == 0x2028 || c.toNat == 0x2029

/-- How many characters a block comment takes, its closing mark included. -/
def blockLength : List Char → Nat
  | [] => 0
  | '*' :: '/' :: _ => 2
  | _ :: rest => blockLength rest + 1

namespace Cursor

/-- Past blanks and comments. -/
def skipTo : Nat → Cursor → Cursor
  | 0, c => c
  | fuel + 1, c =>
    match c.rest with
    | '/' :: '/' :: _ => skipTo fuel (c.skipWhile fun ch => !isLineBreak ch)
    | '/' :: '*' :: rest =>
      let length := blockLength rest + 2
      let broken := c.broken || (c.rest.take length).any isLineBreak
      skipTo fuel { steps length c with broken }
    | ch :: _ =>
      if isSpacing ch then skipTo fuel { c.step with broken := c.broken || isLineBreak ch } else c
    | [] => c

/-- At the next lexeme, given a place just behind the one before. -/
def settle (c : Cursor) : Cursor :=
  skipTo (c.left + 1) { c with broken := false, endLeft := c.left }

/-- At the first lexeme of a text; a line for the system's interpreter is passed over. -/
def ofText (text : List Char) : Cursor :=
  let c : Cursor := ⟨text, text.length, 1, 1, true, text.length⟩
  match text with
  | '#' :: '!' :: _ => (c.skipWhile fun ch => !isLineBreak ch).settle
  | _ => c.settle

def atEnd (c : Cursor) : Bool := c.rest.isEmpty

/-- The next character. -/
def peek? (c : Cursor) : Option Char := c.rest.head?

def startsWith (c : Cursor) (mark : String) : Bool := mark.toList.isPrefixOf c.rest

/-- Past a mark, if it is next. -/
def mark? (mark : String) (c : Cursor) : Option Cursor :=
  if c.startsWith mark then some (steps mark.length c).settle else none

/-- Past a mark if it is next, else in place. -/
def skipMark (mark : String) (c : Cursor) : Cursor := (c.mark? mark).getD c

end Cursor

end PropSchema.TypeScript
