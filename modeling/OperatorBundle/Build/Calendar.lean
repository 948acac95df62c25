import OperatorBundle.Text.Digits

/-!
Dates of the Gregorian calendar, carried on without end in both directions, and the time stamps that
are written with them. A year is counted from March here, so that the leap day is its last day.
-/

namespace OperatorBundle

open OperatorBundle.Text

/-- A minute of the calendar, in universal time. -/
structure Minute where
  year : Int
  month : Nat
  day : Nat
  hour : Nat
  minute : Nat
  deriving DecidableEq, Repr

namespace Minute

/-- The number of days in 400 years, after which the calendar repeats. -/
def daysInEra : Int := 146097

/-- The number of days from the first of March of the year 0 to the start of 1970. -/
def daysBeforeEpoch : Int := 719468

/-- The year of a day in an era of 400 years, counted from the first of March. -/
def yearOfEra (day : Nat) : Nat := (day - day / 1460 + day / 36524 - day / 146096) / 365

/-- The first day of a year of an era. -/
def yearStart (year : Nat) : Nat := 365 * year + year / 4 - year / 100

/-- The month of a day of the year, March being 0. -/
def monthOfYear (day : Nat) : Nat := (5 * day + 2) / 153

/-- The first day of a month, March being 0. -/
def monthStart (month : Nat) : Nat := (153 * month + 2) / 5

/-- The minute in which a second since the start of 1970 falls. -/
def ofSeconds (seconds : Int) : Minute :=
  let minutes := seconds.fdiv 60
  let days := minutes.fdiv 1440 + daysBeforeEpoch
  let ofDay := (minutes.fmod 1440).toNat
  let era := days.fdiv daysInEra
  let dayOfEra := (days.fmod daysInEra).toNat
  let year := yearOfEra dayOfEra
  let dayOfYear := dayOfEra - yearStart year
  let month := monthOfYear dayOfYear
  { year := era * 400 + year + (if month < 10 then 0 else 1)
    month := if month < 10 then month + 3 else month - 9
    day := dayOfYear - monthStart month + 1
    hour := ofDay / 60
    minute := ofDay % 60 }

/-- The short names of the months. -/
def monthNames : List String :=
  ["Jan", "Feb", "Mar", "Apr", "May", "Jun", "Jul", "Aug", "Sep", "Oct", "Nov", "Dec"]

/-- A year of at least four digits, with a sign unless it lies between 0 and 9999. -/
def yearText (year : Int) : List Char :=
  let digits := decimalPadded 4 year.natAbs
  if year < 0 then '-' :: digits else if 9999 < year then '+' :: digits else digits

/-- Day, month, year, hour and minute, as in `01 Jan 1970, 00:00`. -/
def text (m : Minute) : String :=
  let month := (monthNames[m.month - 1]?).getD ""
  let date := decimalPadded 2 m.day ++ ' ' :: month.toList ++ ' ' :: yearText m.year
  let time := decimalPadded 2 m.hour ++ ':' :: decimalPadded 2 m.minute
  String.ofList (date ++ [',', ' '] ++ time)

end Minute

/-- The first second that has a time stamp: the first of the year -262143. -/
def firstSecond : Int := -8334601228800

/-- The last second that has a time stamp: the last of the year 262142. -/
def lastSecond : Int := 8210266876799

/-- The time stamp of a second, if it lies in the range of those that have one. -/
def timeStamp? (seconds : Int) : Option String :=
  if firstSecond ≤ seconds ∧ seconds ≤ lastSecond then some (Minute.ofSeconds seconds).text
  else none

end OperatorBundle
