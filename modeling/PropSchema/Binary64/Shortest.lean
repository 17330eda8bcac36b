import PropSchema.Binary64
/-!
The decimal text of a binary64 number. Of all decimals that read back as the number, the text has
one with the fewest digits, and of those the nearest; a decimal is accepted only after it has been
read back. `Binary64.layout` holds how digits and exponent are spelled.
-/
namespace PropSchema.Binary64

/-- The decimal exponent of the leading digit of a positive magnitude. -/
def leadingExponent (units : Nat) : Int :=
  (decimalLength (units * Nat.pow 10 340 / oneInUnits) : Int) - 341

/-- The quotient `units / (oneInUnits * 10 ^ exponent)` as numerator and denominator. -/
def onGrid (units : Nat) (exponent : Int) : Nat × Nat :=
  if 0 ≤ exponent then (units, oneInUnits * Nat.pow 10 exponent.toNat)
  else (units * Nat.pow 10 (-exponent).toNat, oneInUnits)

def readsBack (rank : Nat) (digits : Nat) (exponent : Int) : Bool :=
  ofDecimal false digits exponent == ofRank false rank

/--
The neighbours of a magnitude among the multiples of `10 ^ exponent`, kept if they read back as
the magnitude; of two that do, the nearer.
-/
def gridNeighbour? (rank : Nat) (exponent : Int) : Option (Nat × Int) :=
  let (num, den) := onGrid (unitsOfRank rank) exponent
  let below := num / den
  let above := below + 1
  match readsBack rank below exponent, readsBack rank above exponent with
  | true, true =>
    let twice := 2 * (num % den)
    if twice < den ∨ (twice = den ∧ below % 2 = 0) then some (below, exponent)
    else some (above, exponent)
  | true, false => some (below, exponent)
  | false, true => some (above, exponent)
  | false, false => none

/-- The magnitude as an exact decimal, which always reads back. -/
def exactDecimal (rank : Nat) : Nat × Int :=
  (unitsOfRank rank * Nat.pow 5 1074, -1074)

/-- Digits and exponent of the shortest decimal of a positive magnitude. -/
def shortest (rank : Nat) : Nat × Int :=
  let leading := leadingExponent (unitsOfRank rank)
  let tried := (List.range 17).findSome? fun more => gridNeighbour? rank (leading - (more : Nat))
  tried.getD (exactDecimal rank)

/-- How digits, exponent and the special values are spelled. -/
structure Layout where
  /-- Leading exponents from `positionalFrom` to `positionalTo` are written without exponent. -/
  positionalFrom : Int
  positionalTo : Int
  /-- The least number of digits of a written exponent. -/
  exponentWidth : Nat
  infinity : String
  nan : String

/-- Positional from 10^-4 to below 10^16, exponents with sign and two digits. -/
def layout : Layout where
  positionalFrom := -4
  positionalTo := 15
  exponentWidth := 2
  infinity := "inf"
  nan := "nan"

/-- Zeros up to a width. -/
def padLeft (width : Nat) (digits : List Char) : List Char :=
  List.replicate (width - digits.length) '0' ++ digits

def exponentChars (form : Layout) (exponent : Int) : List Char :=
  'e' :: (if exponent < 0 then '-' else '+') ::
    padLeft form.exponentWidth (Nat.toDigits 10 exponent.natAbs)

/-- Digits with a point after the first `whole` of them; an integer gets the fraction zero. -/
def positionalChars (digits : List Char) (whole : Int) : List Char :=
  if whole ≤ 0 then '0' :: '.' :: (List.replicate (-whole).toNat '0' ++ digits)
  else if (digits.length : Int) ≤ whole then
    digits ++ List.replicate (whole.toNat - digits.length) '0' ++ ['.', '0']
  else digits.take whole.toNat ++ '.' :: digits.drop whole.toNat

/-- Trailing zeros are dropped and counted into the exponent. -/
def dropTrailingZeros (digits : List Char) : List Char :=
  match (digits.reverse.dropWhile (· == '0')).reverse with
  | [] => ['0']
  | kept => kept

/-- The text of `digits * 10 ^ exponent` in a layout. -/
def decimalChars (form : Layout) (digits : Nat) (exponent : Int) : List Char :=
  let all := Nat.toDigits 10 digits
  let kept := dropTrailingZeros all
  let leading := exponent + (all.length : Int) - 1
  if form.positionalFrom ≤ leading ∧ leading ≤ form.positionalTo then
    positionalChars kept (leading + 1)
  else
    match kept with
    | [] => []
    | [d] => d :: exponentChars form leading
    | d :: more => d :: '.' :: (more ++ exponentChars form leading)

def signChars (negative : Bool) : List Char := if negative then ['-'] else []

/-- The text of a number in a layout. -/
def chars (form : Layout) : Binary64 → List Char
  | .nan => form.nan.toList
  | .infinite negative => signChars negative ++ form.infinity.toList
  | .finite negative rank =>
    signChars negative ++
      if rank.val = 0 then decimalChars form 0 0
      else
        let (digits, exponent) := shortest rank.val
        decimalChars form digits exponent

/-- The text of a number, with `inf` and `nan` for the values that have no digits. -/
def text (x : Binary64) : String := String.ofList (chars layout x)

end PropSchema.Binary64
