/-!
Bytes from their text of sixty-four characters. Characters of no value are passed over, and full
padding ends the text; without it the characters have to come in fours.
-/
namespace PropSchema.Base64

/-- The value of a character. -/
def value? (c : Char) : Option Nat :=
  if 'A' ≤ c ∧ c ≤ 'Z' then some (c.toNat - 65)
  else if 'a' ≤ c ∧ c ≤ 'z' then some (c.toNat - 71)
  else if '0' ≤ c ∧ c ≤ '9' then some (c.toNat + 4)
  else if c = '+' then some 62
  else if c = '/' then some 63
  else none

/-- The byte that a value completes after some values of its group, the last one being `last`. -/
def completed? (place last value : Nat) : Option UInt8 :=
  match place with
  | 1 => some (last * 4 + value / 16).toUInt8
  | 2 => some (last % 16 * 16 + value / 4).toUInt8
  | 3 => some (last % 4 * 64 + value).toUInt8
  | _ => none

/-- The bytes of the rest of a text, given the place in the group, its last value and the padding. -/
def decodeFrom (place last padding : Nat) : List Char → Option (List UInt8)
  | [] => if place = 0 then some [] else none
  | c :: rest =>
    if c = '=' then
      if 2 ≤ place ∧ 4 ≤ place + padding + 1 then some []
      else decodeFrom place last (if 2 ≤ place then padding + 1 else padding) rest
    else match value? c with
    | none => decodeFrom place last padding rest
    | some v => do
      let bytes ← decodeFrom ((place + 1) % 4) v 0 rest
      pure ((completed? place last v).toList ++ bytes)

def decode? (text : String) : Option (List UInt8) := decodeFrom 0 0 0 text.toList

end PropSchema.Base64
