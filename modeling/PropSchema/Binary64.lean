/-!
Binary64 numbers as exact values. A finite number is a sign and a rank, the number of
representable magnitudes below it, so equal numbers of one sign have equal ranks and the order of
ranks is the order of magnitudes. Magnitudes are measured in units of 2^-1074, which makes every
comparison one of natural numbers.
-/
namespace PropSchema

/-- A binary64 number; the two zeros have rank zero. -/
inductive Binary64 where
  | finite (negative : Bool) (rank : Fin 0x7FF0000000000000)
  | infinite (negative : Bool)
  | nan
  deriving DecidableEq, Inhabited

namespace Binary64

/-- The rank that would follow the largest finite one. -/
def rankBound : Nat := 0x7FF0000000000000

/-- One, in units of 2^-1074. -/
def oneInUnits : Nat := Nat.pow 2 1074

/-- The magnitude of a rank in units of 2^-1074; ranks below 2^53 are their own magnitude. -/
def unitsOfRank (rank : Nat) : Nat :=
  let shift := rank / Nat.pow 2 52 - 1
  (rank - shift * Nat.pow 2 52) <<< shift

/-- The rank of the largest magnitude that is at most `units`. -/
def floorRank (units : Nat) : Nat :=
  let shift := units.log2 - 52
  shift * Nat.pow 2 52 + units >>> shift

/-- The rank nearest to `num / den` units, a tie going to the even rank. -/
def nearestRank (num den : Nat) : Nat :=
  let low := floorRank (num / den)
  let middle := den * (unitsOfRank low + unitsOfRank (low + 1))
  if 2 * num < middle then low
  else if middle < 2 * num then low + 1
  else low + low % 2

/-- A magnitude by its rank; ranks from `rankBound` on are infinite. -/
def ofRank (negative : Bool) (rank : Nat) : Binary64 :=
  if h : rank < 0x7FF0000000000000 then .finite negative ⟨rank, h⟩ else .infinite negative

def zero (negative : Bool) : Binary64 := ofRank negative 0

/-- The number nearest to `num / den`. -/
def ofRatio (negative : Bool) (num den : Nat) : Binary64 :=
  ofRank negative (nearestRank (num * oneInUnits) den)

/-- How many decimal digits a number is written with; zero has one. -/
def decimalLength (n : Nat) : Nat := (Nat.toDigits 10 n).length

/--
The number nearest to `digits * 10 ^ exponent`. Values from 10^310 on are infinite and values
below 10^-330 vanish, so the exponent may be of any size.
-/
def ofDecimal (negative : Bool) (digits : Nat) (exponent : Int) : Binary64 :=
  if digits = 0 then zero negative
  else
    let magnitude := exponent + (decimalLength digits : Int)
    if 310 < magnitude then .infinite negative
    else if magnitude < -330 then zero negative
    else if 0 ≤ exponent then ofRatio negative (digits * Nat.pow 10 exponent.toNat) 1
    else ofRatio negative digits (Nat.pow 10 (-exponent).toNat)

/-- The signed magnitude of a finite number in units of 2^-1074. -/
def signedUnits (negative : Bool) (rank : Nat) : Int :=
  if negative then -(unitsOfRank rank : Int) else (unitsOfRank rank : Int)

/-- The number nearest to `units / den` units; zero is positive. -/
def ofSignedUnits (units : Int) (den : Nat) : Binary64 :=
  ofRank (decide (units < 0)) (nearestRank units.natAbs den)

def neg : Binary64 → Binary64
  | .finite negative rank => .finite (!negative) rank
  | .infinite negative => .infinite (!negative)
  | .nan => .nan

/-- The sum rounded to nearest; a sum of two negative zeros is the negative zero. -/
def add : Binary64 → Binary64 → Binary64
  | .nan, _ => .nan
  | _, .nan => .nan
  | .infinite s, .infinite t => if s = t then .infinite s else .nan
  | .infinite s, .finite _ _ => .infinite s
  | .finite _ _, .infinite t => .infinite t
  | .finite s a, .finite t b =>
    if a.val = 0 ∧ b.val = 0 then zero (s && t)
    else ofSignedUnits (signedUnits s a.val + signedUnits t b.val) 1

/-- The product rounded to nearest. -/
def mul : Binary64 → Binary64 → Binary64
  | .nan, _ => .nan
  | _, .nan => .nan
  | .infinite s, .infinite t => .infinite (s != t)
  | .infinite s, .finite t b => if b.val = 0 then .nan else .infinite (s != t)
  | .finite s a, .infinite t => if a.val = 0 then .nan else .infinite (s != t)
  | .finite s a, .finite t b =>
    ofRank (s != t) (nearestRank (unitsOfRank a.val * unitsOfRank b.val) oneInUnits)

def ofNat (n : Nat) : Binary64 := ofRatio false n 1

def one : Binary64 := ofNat 1

/-- Equality of numbers: the two zeros are equal and a NaN equals nothing. -/
def sameNumber : Binary64 → Binary64 → Bool
  | .finite s a, .finite t b => a.val == b.val && (a.val == 0 || s == t)
  | .infinite s, .infinite t => s == t
  | _, _ => false

end Binary64

end PropSchema
