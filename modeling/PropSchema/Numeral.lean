import PropSchema.Schema
import PropSchema.Text
/-!
Reading numbers from source text. An integer has an optional sign and a base mark; whatever is no
integer may still be a decimal with point or exponent, an infinity or not a number. Integers are of
any size, but decimal texts of integers are not: beyond a number of digits they are neither read nor
written.
-/
namespace PropSchema

/-- A number as written: an integer of any size, or a binary64 number. -/
inductive Numeral where
  | int (value : Int)
  | float (value : Binary64)
  deriving DecidableEq

namespace Numeral

/-- The digits of a numeral in a base; all characters must be digits, and there must be one. -/
def digits? (base : Nat) (value? : Char → Option Nat) (cs : List Char) : Option Nat :=
  if cs.isEmpty then none
  else cs.foldl (fun acc c => do
    let n ← acc
    let d ← value? c
    if d < base then some (n * base + d) else none) (some 0)

def hexDigit? (c : Char) : Option Nat :=
  if 'a' ≤ c ∧ c ≤ 'f' then some (c.toNat - 'a'.toNat + 10)
  else if 'A' ≤ c ∧ c ≤ 'F' then some (c.toNat - 'A'.toNat + 10)
  else Text.digit? c

/-- A sign and what follows it. -/
def splitSign : List Char → Bool × List Char
  | '-' :: rest => (true, rest)
  | '+' :: rest => (false, rest)
  | cs => (false, cs)

def signed (negative : Bool) (n : Nat) : Int := if negative then -(n : Int) else (n : Int)

/-- The most digits that an integer may have in decimal text. Numerals of source text with more are
read as binary64 numbers. -/
def decimalLimit : Nat := 4300

/-- Whether an integer has a decimal text. -/
def isWritable (n : Int) : Bool := Binary64.decimalLength n.natAbs ≤ decimalLimit

def limitText : String :=
  s!"Exceeds the limit ({decimalLimit} digits) for integer string conversion"

def limitAdvice : String := "; use sys.set_int_max_str_digits() to increase the limit"

/-- What is said of an integer that has no decimal text. -/
def unwritableText : String := limitText ++ limitAdvice

/-- What is said of a decimal text of so many digits. -/
def tooLongText (digits : Nat) : String :=
  limitText ++ s!": value has {digits} digits" ++ limitAdvice

/-- An unsigned integer; a decimal one does not begin with zero unless it is zero. -/
def magnitude? : List Char → Option Nat
  | '0' :: 'x' :: rest => digits? 16 hexDigit? rest
  | '0' :: 'X' :: rest => digits? 16 hexDigit? rest
  | '0' :: 'o' :: rest => digits? 8 Text.digit? rest
  | '0' :: 'O' :: rest => digits? 8 Text.digit? rest
  | '0' :: 'b' :: rest => digits? 2 Text.digit? rest
  | '0' :: 'B' :: rest => digits? 2 Text.digit? rest
  | cs => do
    let n ← digits? 10 Text.digit? cs
    let first ← cs.head?
    if decimalLimit < cs.length then none
    else if first == '0' ∧ n ≠ 0 then none
    else some n

/-- An integer with sign and base mark, blanks around it allowed. -/
def int? (s : String) : Option Int :=
  let (negative, rest) := splitSign (Text.trimChars s.toList)
  (magnitude? rest).map (signed negative)

/-- The longest run of digits at the front. -/
def spanDigits (cs : List Char) : List Nat × List Char :=
  let run := cs.takeWhile fun c => (Text.digit? c).isSome
  (run.filterMap Text.digit?, cs.drop run.length)

def ofDigits (ds : List Nat) : Nat := ds.foldl (fun n d => n * 10 + d) 0

/-- An exponent mark with its digits; nothing may follow. -/
def exponent? : List Char → Option Int
  | [] => some 0
  | c :: rest =>
    if c == 'e' || c == 'E' then
      let (negative, rest) := splitSign rest
      match spanDigits rest with
      | ([], _) => none
      | (ds, []) => some (signed negative (ofDigits ds))
      | _ => none
    else none

/-- Digits, an optional fraction and an optional exponent, with one digit at least. -/
def decimal? (negative : Bool) (cs : List Char) : Option Binary64 := do
  let (whole, rest) := spanDigits cs
  let (fraction, rest) := match rest with
    | '.' :: rest => spanDigits rest
    | rest => ([], rest)
  if whole.isEmpty && fraction.isEmpty then none
  let exponent ← exponent? rest
  pure (Binary64.ofDecimal negative (ofDigits (whole ++ fraction)) (exponent - fraction.length))

/-- A binary64 number: a decimal, or the name of an infinity or of not a number in any case. -/
def float? (s : String) : Option Binary64 :=
  let (negative, rest) := splitSign (Text.trimChars s.toList)
  let word := Text.lower (String.ofList rest)
  if word == "inf" || word == "infinity" then some (.infinite negative)
  else if word == "nan" then some .nan
  else decimal? negative rest

/-- A numeral of source text, in which underscores and spaces only group digits. -/
def read? (s : String) : Option Numeral :=
  let cleaned := String.ofList (s.toList.filter fun c => c != '_' && c != ' ')
  match int? cleaned with
  | some n => some (.int n)
  | none => (float? cleaned).map .float

/-- The value of a literal type that is a number. -/
def literal : Numeral → LiteralValue
  | .int n => .int n
  | .float x => .float x

/-- The next number up by one. -/
def next : Numeral → Numeral
  | .int n => .int (n + 1)
  | .float x => .float (x.add .one)

end Numeral

end PropSchema
