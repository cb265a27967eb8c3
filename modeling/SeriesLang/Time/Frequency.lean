import SeriesLang.Decimal.Numeral
import SeriesLang.Error
import SeriesLang.Time.Span
import SeriesLang.Word

/-! # Calendar grids

A frequency is a regular grid of instants: all multiples of a step, counted from the start of 1970,
or the starts of all months.
-/

namespace SeriesLang

/-- A regular calendar grid. -/
inductive Frequency where
  | minutes (count : Nat)
  | hours (count : Nat)
  | days (count : Nat)
  | monthStart
deriving DecidableEq, Repr

namespace Frequency

/-- Read a frequency: an optional multiple and the name of a unit. A multiple is at least one, and
    one for months. -/
def ofText? (text : String) : Option Frequency :=
  let (digits, unit) := Numeral.splitDigits (Text.trimBlanks text.toList)
  let count := if digits.isEmpty then 1 else Decimal.ofDigits digits
  if count < 1 ∨ 9223372036854775807 < count then none
  else match String.ofList unit with
    | "MS" => if count = 1 then some .monthStart else none
    | "min" | "T" => some (.minutes count)
    | "H" | "h" => some (.hours count)
    | "D" => some (.days count)
    | _ => none

/-- The seconds between two points of the grid, if they are evenly spaced. They are counted in 64 bits
    with a sign and wrap around, so a huge multiple may have any step, also a negative one or none. -/
def stepSeconds? : Frequency → Option Int
  | .minutes n => some (Word.wrap (n * 60))
  | .hours n => some (Word.wrap (n * 3600))
  | .days n => some (Word.wrap (n * 86400))
  | .monthStart => none

/-- The last point of the grid that is not after the instant; where that one is out of range, the
    instant itself. A grid whose step is zero has no points. -/
def floor (f : Frequency) (t : Instant) : Except Abort Instant :=
  match f.stepSeconds? with
  | some step =>
    if step = 0 then .error .stepZero
    else .ok ((Instant.ofSeconds? (t.seconds - t.seconds % step) 0).getD t)
  | none => .ok t.startOfMonth

/-- The point one step later, if it is in range. A step longer than the longest span cannot be
    taken. -/
def next (f : Frequency) (t : Instant) : Except Abort (Option Instant) :=
  match f.stepSeconds? with
  | some step =>
    match Span.ofSeconds? step with
    | some span => .ok (t.addSeconds? span)
    | none => .error .stepTooLong
  | none => .ok (t.startOfMonth.addMonths? 1)

/-- The first point of the grid that is not before the instant, if it is in range. -/
def ceil (f : Frequency) (t : Instant) : Except Abort (Option Instant) := do
  let below ← f.floor t
  if below = t then return some t else f.next below

end Frequency

end SeriesLang
