import PropSchema.Json.Printer
import PropSchema.Yaml.Value
/-!
The text of a value, as messages show it: by itself a text is shown as it is, within others it
stands in quotes.
-/
namespace PropSchema.Yaml

/-- A number with zeros in front. -/
def padded (width n : Nat) : String :=
  String.ofList (Binary64.padLeft width (Nat.toDigits 10 n))

def hoursAndMinutes (n : Nat) : String := padded 2 (n / 60) ++ ":" ++ padded 2 (n % 60)

/-- A moment by itself: year, month and day, then the time with its offset. -/
def Moment.text (m : Moment) : String :=
  let day := padded 4 m.year ++ "-" ++ padded 2 m.month ++ "-" ++ padded 2 m.day
  match m.clock with
  | none => day
  | some (hour, minute, second, fraction) =>
    let clock := padded 2 hour ++ ":" ++ padded 2 minute ++ ":" ++ padded 2 second ++
      (if fraction == 0 then "" else "." ++ padded 6 fraction)
    let offset := match m.offset with
      | none => ""
      | some o => (if o < 0 then "-" else "+") ++ hoursAndMinutes o.natAbs
    day ++ " " ++ clock ++ offset

/-- A moment within other values: its parts up to the last that is not zero. -/
def Moment.quoted (m : Moment) : String :=
  let day := [m.year, m.month, m.day]
  match m.clock with
  | none => "datetime.date(" ++ ", ".intercalate (day.map toString) ++ ")"
  | some (hour, minute, second, fraction) =>
    let parts := day ++ [hour, minute] ++
      (if fraction != 0 then [second, fraction] else if second != 0 then [second] else [])
    let zone := match m.offset with
      | none => []
      | some 0 => ["tzinfo=datetime.timezone.utc"]
      | some o => ["tzinfo=datetime.timezone(" ++ durationText o ++ ")"]
    "datetime.datetime(" ++ ", ".intercalate (parts.map toString ++ zone) ++ ")"

def wordOfBool (b : Bool) : String := if b then "True" else "False"

namespace Value

mutual

/-- A value within others. -/
def quoted : Value → String
  | .null => "None"
  | .bool b => wordOfBool b
  | .int n => String.ofList (Json.intChars n)
  | .float x => x.text
  | .str s => Text.quoted s
  | .bytes b => Text.quotedBytes b
  | .moment m => m.quoted
  | .seq items => "[" ++ ", ".intercalate (quotedAll items) ++ "]"
  | .pair key value => "(" ++ quoted key ++ ", " ++ quoted value ++ ")"
  | .map entries => "\x7b" ++ ", ".intercalate (quotedEntries entries) ++ "\x7d"
  | .set [] => "set()"
  | .set (member :: members) =>
    "\x7b" ++ ", ".intercalate (quoted member :: quotedAll members) ++ "\x7d"
  | .loop isMapping => if isMapping then "\x7b...\x7d" else "[...]"

def quotedAll : List Value → List String
  | [] => []
  | item :: items => quoted item :: quotedAll items

def quotedEntries : List (Value × Value) → List String
  | [] => []
  | (key, value) :: entries => (quoted key ++ ": " ++ quoted value) :: quotedEntries entries

end

/-- A value by itself. -/
def text : Value → String
  | .str s => s
  | .moment m => m.text
  | value => value.quoted

mutual

/-- Whether a value can be written: there is no integer in it that has too many digits. -/
def isWritable : Value → Bool
  | .int n => Numeral.isWritable n
  | .seq items => allWritable items
  | .pair key value => isWritable key && isWritable value
  | .map entries => entriesWritable entries
  | .set members => allWritable members
  | _ => true

def allWritable : List Value → Bool
  | [] => true
  | item :: items => isWritable item && allWritable items

def entriesWritable : List (Value × Value) → Bool
  | [] => true
  | (key, value) :: entries => isWritable key && isWritable value && entriesWritable entries

end

/-- The text of a value by itself, if it can be written. -/
def written (v : Value) : Except Fault String := if v.isWritable then .ok v.text else .error .noText

end Value

end PropSchema.Yaml
