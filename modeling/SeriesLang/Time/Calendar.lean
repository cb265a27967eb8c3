/-! # The civil calendar

Dates of the Gregorian calendar, extended to all years, and their count of days from the first of
January 1970.
-/

namespace SeriesLang

/-- A day of the civil calendar. -/
structure Date where
  year : Int
  /-- From 1 to 12. -/
  month : Nat
  /-- From 1 to the length of the month. -/
  day : Nat
deriving DecidableEq, Repr

namespace Calendar

/-- Every fourth year is a leap year, except for full centuries that 400 does not divide. -/
def isLeapYear (year : Int) : Bool :=
  year % 4 == 0 && (year % 100 != 0 || year % 400 == 0)

/-- The number of days of each month of a year. -/
def monthLengths (leap : Bool) : List Nat :=
  [31, if leap then 29 else 28, 31, 30, 31, 30, 31, 31, 30, 31, 30, 31]

/-- The number of days of a month. -/
def daysInMonth (year : Int) (month : Nat) : Nat :=
  (monthLengths (isLeapYear year)).getD (month - 1) 0

/-- The days from the first of January of year 1 to the first of January of a year. -/
def daysBeforeYear (year : Int) : Int :=
  365 * (year - 1) + (year - 1) / 4 - (year - 1) / 100 + (year - 1) / 400

/-- The days from the start of a year to the first of a month. -/
def daysBeforeMonth (year : Int) (month : Nat) : Nat :=
  ((monthLengths (isLeapYear year)).take (month - 1)).foldr (· + ·) 0

/-- The days from the first of January of year 1 to the first of January 1970. -/
def epochDays : Int := 719162

/-- The days from the first of January 1970 to a date. -/
def daysOfDate (date : Date) : Int :=
  daysBeforeYear date.year + daysBeforeMonth date.year date.month + (date.day - 1 : Nat) - epochDays

/-- The year in which a day lies, counted from the first of January of year 1. A first guess from the
    mean length of a year is at most one off. -/
def yearOfDays (days : Int) : Int :=
  let guess := days * 400 / 146097 + 1
  if days < daysBeforeYear guess then guess - 1
  else if daysBeforeYear (guess + 1) ≤ days then guess + 1
  else guess

/-- The month and the day of the month, from the first month on, for a day counted from zero. -/
def splitMonths : List Nat → Nat → Nat → Nat × Nat
  | [], month, day => (month, day + 1)
  | length :: rest, month, day =>
    if day < length then (month, day + 1) else splitMonths rest (month + 1) (day - length)

/-- The date that lies the given number of days from the first of January 1970. -/
def dateOfDays (days : Int) : Date :=
  let days := days + epochDays
  let year := yearOfDays days
  let (month, day) :=
    splitMonths (monthLengths (isLeapYear year)) 1 (days - daysBeforeYear year).toNat
  ⟨year, month, day⟩

/-- The years that timestamps reach. -/
def minYear : Int := -262143

/-- The last year that timestamps reach. -/
def maxYear : Int := 262142

/-- Is this a day of the calendar, in a year that timestamps reach? -/
def isValid (date : Date) : Bool :=
  minYear ≤ date.year && date.year ≤ maxYear && 1 ≤ date.month && date.month ≤ 12
    && 1 ≤ date.day && date.day ≤ daysInMonth date.year date.month

end Calendar

end SeriesLang
