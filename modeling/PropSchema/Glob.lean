/-!
Glob patterns for whole texts: a star for any characters, a question mark for one, and a class in
brackets. Slashes are characters like all others, and nothing escapes a special character.
-/
namespace PropSchema

namespace Glob

/-- What stands in brackets: characters, and hyphens that make ranges of their neighbours. -/
inductive ClassPart where
  | char (c : Char)
  | hyphen
  deriving DecidableEq

/-- The parts of a pattern. -/
inductive Part where
  | star
  | one
  | char (c : Char)
  /-- A character among those of the class, or not among them. -/
  | oneOf (negated : Bool) (parts : List ClassPart)
  deriving DecidableEq

/-- The length of what stands in brackets; a bracket at its beginning does not close it. -/
def classLength (cs : List Char) : Option Nat :=
  let lead := match cs with
    | '!' :: ']' :: _ => 2
    | '!' :: _ => 1
    | ']' :: _ => 1
    | _ => 0
  let body := (cs.drop lead).takeWhile (· != ']')
  if lead + body.length < cs.length then some (lead + body.length) else none

/--
The pieces between the hyphens that make ranges. The first piece has `lead` characters at least,
and the others two but for the last.
-/
def pieces : Nat → Nat → List Char → List (List Char)
  | 0, _, cs => [cs]
  | fuel + 1, lead, cs =>
    let before := cs.take lead ++ (cs.drop lead).takeWhile (· != '-')
    match cs.drop before.length with
    | '-' :: rest => before :: pieces fuel 2 rest
    | _ => [cs]

/-- A hyphen at the end is a character of its own. -/
def closeHyphen : List (List Char) → List (List Char)
  | [piece, []] => [piece ++ ['-']]
  | piece :: rest => piece :: closeHyphen rest
  | [] => []

/-- Without the ranges whose last character comes before the first. -/
def dropEmptyRanges : List (List Char) → List (List Char)
  | [] => []
  | piece :: rest =>
    match dropEmptyRanges rest with
    | [] => [piece]
    | next :: later =>
      match piece.getLast?, next with
      | some last, first :: others =>
        if first < last then (piece.dropLast ++ others) :: later else piece :: next :: later
      | _, _ => piece :: next :: later

def joinPieces : List (List Char) → List ClassPart
  | [] => []
  | [piece] => piece.map .char
  | piece :: rest => piece.map .char ++ .hyphen :: joinPieces rest

/-- What the text in brackets stands for. -/
def ofClass (cs : List Char) : Part :=
  let lead := if cs.head? == some '!' then 2 else 1
  match joinPieces (dropEmptyRanges (closeHyphen (pieces cs.length lead cs))) with
  | .char '!' :: parts => .oneOf true parts
  | parts => .oneOf false parts

/-- The parts of a pattern; a bracket that nothing closes is a character like others. -/
def parts : Nat → List Char → List Part
  | 0, _ => []
  | _ + 1, [] => []
  | fuel + 1, '*' :: rest => .star :: parts fuel rest
  | fuel + 1, '?' :: rest => .one :: parts fuel rest
  | fuel + 1, '[' :: rest =>
    match classLength rest with
    | some n => ofClass (rest.take n) :: parts fuel (rest.drop (n + 1))
    | none => .char '[' :: parts fuel rest
  | fuel + 1, c :: rest => .char c :: parts fuel rest

/-- Whether a character is among those of a class. -/
def inClass (c : Char) : List ClassPart → Bool
  | [] => false
  | .char low :: .hyphen :: .char high :: rest => (low ≤ c && c ≤ high) || inClass c rest
  | .char x :: rest => c == x || inClass c rest
  | .hyphen :: rest => c == '-' || inClass c rest

/-- All suffixes of a list, the longest first. -/
def suffixes : List Char → List (List Char)
  | [] => [[]]
  | c :: cs => (c :: cs) :: suffixes cs

/-- Whether parts match a whole text. -/
def matchesParts : List Part → List Char → Bool
  | [], cs => cs.isEmpty
  | .star :: ps, cs => (suffixes cs).any fun rest => matchesParts ps rest
  | _ :: _, [] => false
  | .one :: ps, _ :: cs => matchesParts ps cs
  | .char x :: ps, c :: cs => c == x && matchesParts ps cs
  | .oneOf negated set :: ps, c :: cs => (inClass c set != negated) && matchesParts ps cs

/-- Whether a pattern matches a whole text. -/
def isMatch (pattern text : String) : Bool :=
  matchesParts (parts pattern.length pattern.toList) text.toList

end Glob

end PropSchema
