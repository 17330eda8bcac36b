import PropSchema.Binary64.Shortest
/-!
The text of an instant by the calendar, in universal time. Days are counted from the first of March
of the year zero, so that leap days end the years and every span of 400 years is alike.
-/
namespace PropSchema.Instant

/-- Days from the first of March of the year zero to the first of January 1970. -/
def epochDay : Nat := 719468

/-- Days in 400 years. -/
def cycleDays : Nat := 146097

/-- Year, month and day of a day, given its number from 1970 on. -/
def civil (days : Nat) : Nat × Nat × Nat :=
  let z := days + epochDay
  let day := z % cycleDays
  let year := (day - day / 1460 + day / 36524 - day / 146096) / 365
  let dayOfYear := day - (365 * year + year / 4 - year / 100)
  let month := (5 * dayOfYear + 2) / 153
  let y := year + z / cycleDays * 400
  (if month < 10 then y else y + 1, if month < 10 then month + 3 else month - 9,
    dayOfYear - (153 * month + 2) / 5 + 1)

def padded (width n : Nat) : String := String.ofList (Binary64.padLeft width (Nat.toDigits 10 n))

/-- The text of an instant, given the microseconds from 1970 on; a fraction of zero is left out. -/
def text (microseconds : Nat) : String :=
  let seconds := microseconds / 1000000
  let fraction := microseconds % 1000000
  let (year, month, day) := civil (seconds / 86400)
  padded 4 year ++ "-" ++ padded 2 month ++ "-" ++ padded 2 day ++ "T" ++
    padded 2 (seconds / 3600 % 24) ++ ":" ++ padded 2 (seconds / 60 % 60) ++ ":" ++
    padded 2 (seconds % 60) ++ (if fraction == 0 then "" else "." ++ padded 6 fraction) ++ "Z"

end PropSchema.Instant
