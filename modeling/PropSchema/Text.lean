/-!
Cutting and comparing text: blanks, trimming, the part after the last separator, lower case for
keywords, and the decimal digits of all scripts. Strings are read as lists of characters throughout.
-/
namespace PropSchema.Text

/-- Blanks that trimming removes, the separators of control and of Unicode spacing among them. -/
def isBlank (c : Char) : Bool :=
  let n := c.toNat
  (9 ≤ n && n ≤ 13) || (0x1C ≤ n && n ≤ 0x20) || n == 0x85 || n == 0xA0 || n == 0x1680 ||
    (0x2000 ≤ n && n ≤ 0x200A) || n == 0x2028 || n == 0x2029 || n == 0x202F || n == 0x205F ||
    n == 0x3000

def dropRightWhile (p : Char → Bool) (cs : List Char) : List Char :=
  (cs.reverse.dropWhile p).reverse

/-- A text without the blanks at its ends. -/
def trimChars (cs : List Char) : List Char := dropRightWhile isBlank (cs.dropWhile isBlank)

def trim (s : String) : String := String.ofList (trimChars s.toList)

/-- Lower case for ASCII letters; keywords have no others. -/
def lower (s : String) : String := String.ofList (s.toList.map Char.toLower)

/-- A text without the given character. -/
def erase (c : Char) (cs : List Char) : List Char := cs.filter (· != c)

/-- The pieces between separators; there is always one more piece than separators. -/
def split (separator : Char) : List Char → List (List Char)
  | [] => [[]]
  | c :: rest =>
    if c == separator then [] :: split separator rest
    else match split separator rest with
      | [] => [[c]]
      | piece :: pieces => (c :: piece) :: pieces

/-- The parts before and after the last separator; without one the first part is empty. -/
def splitLast (separator : Char) (cs : List Char) : List Char × List Char :=
  let last := (cs.reverse.takeWhile (· != separator)).reverse
  (cs.take (cs.length - last.length - 1), last)

/-- What follows the last separator. -/
def afterLast (separator : Char) (s : String) : String :=
  String.ofList (splitLast separator s.toList).2

/-- Line ends of either kind become a single line feed. -/
def universalNewlines : List Char → List Char
  | [] => []
  | '\r' :: '\n' :: rest => '\n' :: universalNewlines rest
  | '\r' :: rest => '\n' :: universalNewlines rest
  | c :: rest => c :: universalNewlines rest

/-- The order of texts by code points. -/
def le (a b : String) : Bool := decide (¬ b < a)

/-- Sorted by code points; equal texts keep their order. -/
def sort (texts : List String) : List String := texts.mergeSort le

/-- The zeros of the decimal digit rows: each script has its ten digits in a row. -/
def digitZeros : List Nat :=
  [0x30, 0x660, 0x6F0, 0x7C0, 0x966, 0x9E6, 0xA66, 0xAE6, 0xB66, 0xBE6, 0xC66, 0xCE6, 0xD66, 0xDE6,
   0xE50, 0xED0, 0xF20, 0x1040, 0x1090, 0x17E0, 0x1810, 0x1946, 0x19D0, 0x1A80, 0x1A90, 0x1B50,
   0x1BB0, 0x1C40, 0x1C50, 0xA620, 0xA8D0, 0xA900, 0xA9D0, 0xA9F0, 0xAA50, 0xABF0, 0xFF10, 0x104A0,
   0x10D30, 0x11066, 0x110F0, 0x11136, 0x111D0, 0x112F0, 0x11450, 0x114D0, 0x11650, 0x116C0,
   0x11730, 0x118E0, 0x11950, 0x11C50, 0x11D50, 0x11DA0, 0x11F50, 0x16A60, 0x16AC0, 0x16B50,
   0x1D7CE, 0x1D7D8, 0x1D7E2, 0x1D7EC, 0x1D7F6, 0x1E140, 0x1E2F0, 0x1E4F0, 0x1E950, 0x1FBF0]

/-- The value of a decimal digit of any script. -/
def digit? (c : Char) : Option Nat :=
  (digitZeros.find? fun start => start ≤ c.toNat && c.toNat < start + 10).map (c.toNat - ·)

end PropSchema.Text
