import SeriesLang.Time.Instant

/-! # Writing instants

An instant is written as `YYYY-MM-DD`, a separator and `HH:MM:SS`, with as many digits of a fraction
as it needs in groups of three. A year outside of 0 to 9999 has a sign; a leap second is second 60.
-/

namespace SeriesLang.Instant

/-- The decimal digits of a number, with zeros in front up to a width. -/
def padded (width n : Nat) : List Char :=
  let digits := Nat.toDigits 10 n
  List.replicate (width - digits.length) '0' ++ digits

/-- The text of a year. -/
def yearChars (year : Int) : List Char :=
  if 0 ≤ year ∧ year ≤ 9999 then padded 4 year.toNat
  else (if year < 0 then '-' else '+') :: padded 4 year.natAbs

/-- The text of a fraction of a second, in as few groups of three digits as it needs. -/
def fractionChars (nanos : Nat) : List Char :=
  if nanos = 0 then []
  else if nanos % 1000000 = 0 then '.' :: padded 3 (nanos / 1000000)
  else if nanos % 1000 = 0 then '.' :: padded 6 (nanos / 1000)
  else '.' :: padded 9 nanos

/-- The text of an instant, with a character between its date and its time of day. -/
def chars (separator : Char) (t : Instant) : List Char :=
  let date := t.date
  let second := t.secondOfDay
  let (leap, nanos) :=
    if 1000000000 ≤ t.nanos then (1, t.nanos - 1000000000) else (0, t.nanos)
  yearChars date.year ++ '-' :: padded 2 date.month ++ '-' :: padded 2 date.day ++
    separator :: padded 2 (second / 3600) ++ ':' :: padded 2 (second / 60 % 60) ++
    ':' :: padded 2 (second % 60 + leap) ++ fractionChars nanos

/-- The text of an instant in stored values and answers. -/
def iso (t : Instant) : String :=
  String.ofList (t.chars 'T')

/-- The text of an instant in messages. -/
def display (t : Instant) : String :=
  String.ofList (t.chars ' ')

end SeriesLang.Instant
