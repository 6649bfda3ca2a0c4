/-!
# Times in log lines

A log line begins with the time at which it is written: date and time of day in Coordinated
Universal Time, down to the millisecond.
-/

namespace BlockFlow.Clock

/-- A number in decimal digits, filled up with zeros on the left to the width. -/
def padded (width n : Nat) : String :=
  let digits := Nat.toDigits 10 n
  String.ofList (List.replicate (width - digits.length) '0' ++ digits)

/-- Year, month and day of a number of days after the start of 1970.

Days are counted from the first of March of the year zero, so that a leap day is the last of its
year.  A cycle of 400 years has 146097 days, and the months from March on begin every
`(153 m + 2) / 5` days. -/
def date (days : Nat) : Nat × Nat × Nat :=
  let shifted := days + 719468
  let cycle := shifted / 146097
  let day := shifted % 146097
  let year := (day - day / 1460 + day / 36524 - day / 146096) / 365
  let dayOfYear := day - (365 * year + year / 4 - year / 100)
  let month := (5 * dayOfYear + 2) / 153
  let dayOfMonth := dayOfYear - (153 * month + 2) / 5 + 1
  let calendarMonth := if month < 10 then month + 3 else month - 9
  (400 * cycle + year + (if calendarMonth ≤ 2 then 1 else 0), calendarMonth, dayOfMonth)

/-- The text of a number of milliseconds after the start of 1970. -/
def text (milliseconds : Nat) : String :=
  let (year, month, day) := date (milliseconds / 86400000)
  let rest := milliseconds % 86400000
  padded 4 year ++ "-" ++ padded 2 month ++ "-" ++ padded 2 day ++ "T"
    ++ padded 2 (rest / 3600000) ++ ":" ++ padded 2 (rest / 60000 % 60) ++ ":"
    ++ padded 2 (rest / 1000 % 60) ++ "." ++ padded 3 (rest % 1000) ++ "Z"

end BlockFlow.Clock
