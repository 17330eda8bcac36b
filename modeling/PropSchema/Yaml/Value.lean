import PropSchema.Base64
import PropSchema.Binary64.Shortest
import PropSchema.Numeral
import PropSchema.Text.Quoted
import PropSchema.Yaml.Node
/-!
The values that YAML nodes stand for. A node's tag decides what its text is read as; mappings take
the entries of merged mappings first, and of two equal keys the first stays with the last value.
-/
namespace PropSchema.Yaml

inductive Value where
  | null
  | bool (value : Bool)
  | int (value : Int)
  | float (value : Binary64)
  | str (value : String)
  | bytes (value : List UInt8)
  | moment (value : Moment)
  | seq (items : List Value)
  /-- An entry of an ordered list of entries. -/
  | pair (key value : Value)
  | map (entries : List (Value × Value))
  | set (members : List Value)
  /-- A sequence or mapping within itself. -/
  | loop (isMapping : Bool)
  deriving Inhabited

/-- Why a text has no value, or a value no text. -/
inductive Fault where
  /-- The text breaks the rules of the language. -/
  | malformed
  /-- A decimal integer has more digits than can be read. -/
  | tooLong (digits : Nat)
  /-- An integer has more digits than can be written. -/
  | noText
  | noTruth (text : String)
  | noInteger (text : String) (base : Nat)
  | noFloat (text : String)
  | noNumber
  | noMoment
  | yearRange
  | monthRange
  | dayRange
  | clockRange (unit : String) (last : Nat)
  | offsetRange (minutes : Int)
  deriving DecidableEq

/-- A duration of so many minutes, counted in days and seconds. -/
def durationText (minutes : Int) : String :=
  let days := Int.fdiv minutes 1440
  let seconds := (minutes - days * 1440) * 60
  let parts := (if days == 0 then [] else [s!"days={days}"]) ++
    (if seconds == 0 then [] else [s!"seconds={seconds}"])
  "datetime.timedelta(" ++ (if parts.isEmpty then "0" else ", ".intercalate parts) ++ ")"

def Fault.message : Fault → String
  | .malformed => "not a document"
  | .tooLong digits => Numeral.tooLongText digits
  | .noText => Numeral.unwritableText
  | .noTruth text => Text.quoted text
  | .noInteger text base =>
    s!"invalid literal for int() with base {base}: " ++ Text.quoted text
  | .noFloat text => "could not convert string to float: " ++ Text.quoted text
  | .noNumber => "string index out of range"
  | .noMoment => "'NoneType' object has no attribute 'groupdict'"
  | .yearRange => "year 0 is out of range"
  | .monthRange => "month must be in 1..12"
  | .dayRange => "day is out of range for month"
  | .clockRange unit last => s!"{unit} must be in 0..{last}"
  | .offsetRange minutes =>
    "offset must be a timedelta strictly between -timedelta(hours=24) and " ++
      s!"timedelta(hours=24), not {durationText minutes}."

/-- The pieces between colons as digits of base sixty, the first one the highest. -/
def sixties (digits : List Nat) : Nat := digits.foldl (fun n d => n * 60 + d) 0

/-- An integer in a base; blanks around it are allowed. Only decimal ones can have too many digits. -/
def integerIn (base : Nat) (cs : List Char) : Except Fault Nat :=
  let digits := Text.trimChars cs
  let length := (digits.takeWhile fun c => (Text.digit? c).isSome).length
  if base == 10 && Numeral.decimalLimit < length then .error (.tooLong length)
  else
    match Numeral.digits? base Numeral.hexDigit? digits with
    | some n => .ok n
    | none => .error (.noInteger (String.ofList cs) base)

/-- An integer of base two, eight, ten, sixteen or sixty; underscores only group digits. -/
def readInteger (text : String) : Except Fault Int := do
  let cs := Text.erase '_' text.toList
  if cs.isEmpty then throw .noNumber
  let (negative, digits) := Numeral.splitSign cs
  let n ← match digits with
    | [] => throw .noNumber
    | '0' :: 'b' :: rest => integerIn 2 rest
    | '0' :: 'x' :: rest => integerIn 16 rest
    | '0' :: _ => integerIn 8 digits
    | _ =>
      if digits.contains ':' then do
        pure (sixties (← (Text.split ':' digits).mapM (integerIn 10)))
      else integerIn 10 digits
  pure (Numeral.signed negative n)

def floatOf (cs : List Char) : Except Fault Binary64 :=
  match Numeral.float? (String.ofList cs) with
  | some x => .ok x
  | none => .error (.noFloat (String.ofList cs))

/-- The sum of digits of base sixty, the lowest first, each taken times its power. -/
def sixtiesOf : Nat → Binary64 → List Binary64 → Binary64
  | _, sum, [] => sum
  | power, sum, digit :: digits =>
    sixtiesOf (power * 60) (sum.add (digit.mul (.ofNat power))) digits

/-- A number with a point; the special values begin with it. -/
def readFloat (text : String) : Except Fault Binary64 := do
  let cs := (Text.erase '_' text.toList).map Char.toLower
  if cs.isEmpty then throw .noNumber
  let (negative, digits) := Numeral.splitSign cs
  let x ←
    if digits == ".inf".toList then pure (.infinite false)
    else if digits == ".nan".toList then pure .nan
    else if digits.contains ':' then do
      let parts ← (Text.split ':' digits).mapM floatOf
      pure (sixtiesOf 1 (.zero false) parts.reverse)
    else floatOf digits
  pure (if negative then x.neg else x)

def isLeap (year : Nat) : Bool := year % 4 == 0 && (year % 100 != 0 || year % 400 == 0)

def daysIn (year month : Nat) : Nat :=
  if month == 2 then (if isLeap year then 29 else 28)
  else if [4, 6, 9, 11].contains month then 30 else 31

/-- A moment that the calendar has. -/
def Moment.check (m : Moment) : Except Fault Moment := do
  if m.offset.any fun o => 1440 ≤ o.natAbs then throw (.offsetRange (m.offset.getD 0))
  if m.year == 0 then throw .yearRange
  if m.month == 0 || 12 < m.month then throw .monthRange
  if m.day == 0 || daysIn m.year m.month < m.day then throw .dayRange
  match m.clock with
  | none => pure m
  | some (hour, minute, second, _) =>
    if 23 < hour then throw (.clockRange "hour" 23)
    if 59 < minute then throw (.clockRange "minute" 59)
    if 59 < second then throw (.clockRange "second" 59)
    pure m

def isAscii (c : Char) : Bool := c.toNat < 0x80

/-- The value of a scalar by the name of its tag. -/
def Value.ofScalar (tag : Tag) (text : String) : Except Fault Value :=
  match tag with
  | .core "null" => .ok .null
  | .core "bool" =>
    match truthOf? text with
    | some b => .ok (.bool b)
    | none => .error (.noTruth (Text.lower text))
  | .core "int" => do pure (.int (← readInteger text))
  | .core "float" => do pure (.float (← readFloat text))
  | .core "binary" =>
    match Base64.decode? text with
    | some found => if text.toList.all isAscii then .ok (.bytes found) else .error .malformed
    | none => .error .malformed
  | .core "timestamp" =>
    match moment? text with
    | some m => do pure (.moment (← m.check))
    | none => .error .noMoment
  | .core "str" => .ok (.str text)
  | _ => .error .malformed

namespace Value

/-- Whether an integer is the value of a number. -/
def isInt (n : Int) : Binary64 → Bool
  | .finite negative rank =>
    Binary64.signedUnits negative rank.val == n * (Binary64.oneInUnits : Int)
  | _ => false

def intOfBool (b : Bool) : Int := if b then 1 else 0

/-- Minutes from the beginning of the calendar to a moment, without regard to seconds. -/
def minutesOf (m : Moment) (hour minute : Nat) : Int :=
  let before := m.year - 1
  let days := before * 365 + before / 4 - before / 100 + before / 400 +
    (List.range (m.month - 1)).foldl (fun n i => n + daysIn m.year (i + 1)) m.day
  (days * 1440 + hour * 60 + minute : Nat)

/-- Whether two moments are one: both are days, or local times, or instants. -/
def sameMoment (a b : Moment) : Bool :=
  match a.clock, b.clock, a.offset, b.offset with
  | some (h, m, s, f), some (h', m', s', f'), some o, some o' =>
    minutesOf a h m - o == minutesOf b h' m' - o' && s == s' && f == f'
  | _, _, _, _ => a == b

/-- Equality of keys. Truth values are the numbers zero and one, and equal numbers are one key. -/
def sameKey : Value → Value → Bool
  | .null, .null => true
  | .str a, .str b => a == b
  | .bytes a, .bytes b => a == b
  | .moment a, .moment b => sameMoment a b
  | .bool a, .bool b => a == b
  | .bool a, .int b => intOfBool a == b
  | .int a, .bool b => a == intOfBool b
  | .bool a, .float b => isInt (intOfBool a) b
  | .float a, .bool b => isInt (intOfBool b) a
  | .int a, .int b => a == b
  | .int a, .float b => isInt a b
  | .float a, .int b => isInt b a
  | .float a, .float b => a.sameNumber b
  | _, _ => false

/-- Collections cannot be keys. -/
def isKey : Value → Bool
  | .seq _ => false
  | .map _ => false
  | .set _ => false
  | .loop _ => false
  | _ => true

/-- Entries with a value put under a key: in place if the key is there, else at the end. -/
def setEntry (key value : Value) : List (Value × Value) → List (Value × Value)
  | [] => [(key, value)]
  | (k, v) :: rest =>
    if k.sameKey key then (k, value) :: rest else (k, v) :: setEntry key value rest

def distinct (entries : List (Value × Value)) : List (Value × Value) :=
  entries.foldl (fun known (key, value) => setEntry key value known) []

/-- The value of a text key in a mapping. -/
def field? (name : String) : Value → Option Value
  | .map entries => (entries.find? fun (key, _) => key.sameKey (.str name)).map Prod.snd
  | _ => none

end Value

/-- What a key stands for in its mapping. -/
inductive KeyRole where
  | merge
  | text (text : String)
  | plain

def Node.keyRole : Node → KeyRole
  | .scalar (.core "merge") _ => .merge
  | .sequence (.core "merge") _ => .merge
  | .mapping (.core "merge") _ => .merge
  | .scalar (.core "value") text => .text text
  | _ => .plain

/-- Tags of values that have a text. -/
def isScalarTag (name : String) : Bool :=
  ["null", "bool", "int", "float", "binary", "timestamp", "str"].contains name

mutual

/-- The text of a scalar, or of what a mapping has under the key for its value. -/
def Node.scalarText? : Node → Option String
  | .scalar _ text => some text
  | .mapping _ entries => scalarTextIn? entries
  | _ => none

def scalarTextIn? : List (Node × Node) → Option String
  | [] => none
  | (key, value) :: rest =>
    match key.keyRole with
    | .text _ => value.scalarText?
    | _ => scalarTextIn? rest

end

/-- The entries of a mapping: those of merged mappings, then its own. -/
def joined (divided : List (Value × Value) × List (Value × Value)) : List (Value × Value) :=
  divided.1 ++ divided.2

mutual

/-- The value of a node. -/
def Value.ofNode : Node → Except Fault Value
  | .scalar tag text => Value.ofScalar tag text
  | .sequence (.core "seq") items => do pure (.seq (← valuesOf items))
  | .sequence (.core "omap") items => do pure (.seq (← pairsOf items))
  | .sequence (.core "pairs") items => do pure (.seq (← pairsOf items))
  | .sequence _ _ => throw .malformed
  | .mapping (.core "map") entries => do
    pure (.map (Value.distinct (joined (← dividedOf entries))))
  | .mapping (.core "set") entries => do
    pure (.set ((Value.distinct (joined (← dividedOf entries))).map Prod.fst))
  | .mapping (.core name) entries =>
    match scalarTextIn? entries with
    | some text => if isScalarTag name then Value.ofScalar (.core name) text else throw .malformed
    | none => throw .malformed
  | .mapping (.other _) _ => throw .malformed
  | .loop isMapping => .ok (.loop isMapping)

def valuesOf : List Node → Except Fault (List Value)
  | [] => .ok []
  | item :: items => do
    let value ← Value.ofNode item
    pure (value :: (← valuesOf items))

/-- Mappings of one entry each, as a list of entries. -/
def pairsOf : List Node → Except Fault (List Value)
  | [] => .ok []
  | .mapping _ [(key, value)] :: items => do
    let key ← Value.ofNode key
    let value ← Value.ofNode value
    pure (.pair key value :: (← pairsOf items))
  | _ => throw .malformed

/-- The entries of merged mappings, and those of the mapping itself. -/
def dividedOf : List (Node × Node) → Except Fault (List (Value × Value) × List (Value × Value))
  | [] => .ok ([], [])
  | (key, value) :: rest =>
    match key.keyRole with
    | .merge => do
      let found ← mergedOf value
      let (merged, own) ← dividedOf rest
      pure (found ++ merged, own)
    | .text text => do
      let value ← Value.ofNode value
      let (merged, own) ← dividedOf rest
      pure (merged, (.str text, value) :: own)
    | .plain => do
      let key ← Value.ofNode key
      if !key.isKey then throw .malformed
      let value ← Value.ofNode value
      let (merged, own) ← dividedOf rest
      pure (merged, (key, value) :: own)

/-- The entries of a mapping to merge, or of several, where the first one counts most. -/
def mergedOf : Node → Except Fault (List (Value × Value))
  | .mapping _ entries => do pure (joined (← dividedOf entries))
  | .sequence _ items => mergedItems items
  | .loop true => .ok []
  | _ => throw .malformed

def mergedItems : List Node → Except Fault (List (Value × Value))
  | [] => .ok []
  | .mapping _ entries :: items => do
    let first ← dividedOf entries
    pure ((← mergedItems items) ++ joined first)
  | _ => throw .malformed

end

/-- The value of a text, null if there is no document in it. -/
def Value.ofText (text : List Char) : Except Fault Value :=
  match document? text with
  | none => .error .malformed
  | some none => .ok .null
  | some (some node) => Value.ofNode node

end PropSchema.Yaml
