import SeriesLang.Decimal.Numeral
import SeriesLang.Text.Blank
import SeriesLang.Time.Instant

/-! # Spans of time

Whole seconds between instants: spans given in calendar units, offsets from universal time, and the
calendar shift that moves by months and then by a span. Lags, to the nanosecond, say how long before
its value date a value is to be known.
-/

namespace SeriesLang.Span

/-- The longest span, in seconds, to either side. -/
def maxSeconds : Int := 9223372036854775

/-- The seconds of a span, if it is not too long. -/
def ofSeconds? (seconds : Int) : Option Int :=
  if -maxSeconds ≤ seconds ∧ seconds ≤ maxSeconds then some seconds else none

/-- The span of a number of units of so many seconds each. -/
def ofUnits? (count unit : Int) : Option Int :=
  ofSeconds? (count * unit)

/-- The span of weeks, days, hours and minutes; each of them and each partial sum has to be in
    range. -/
def duration? (weeks days hours minutes : Int) : Option Int := do
  let weeks ← ofUnits? weeks 604800
  let days ← ofUnits? days 86400
  let sum ← ofSeconds? (weeks + days)
  let hours ← ofUnits? hours 3600
  let sum ← ofSeconds? (sum + hours)
  let minutes ← ofUnits? minutes 60
  ofSeconds? (sum + minutes)

/-- The offset from universal time that a text names: universal time itself, or a sign with two
    digits of hours and two of minutes. -/
def utcOffset? (text : String) : Option Int :=
  let cs := Text.trimBlanks text.toList
  let value (a b : Char) : Option Nat :=
    if a.isDigit && b.isDigit then some (Decimal.ofDigits [a, b]) else none
  let offset (sign : Int) (h1 h2 m1 m2 : Char) : Option Int := do
    let hours ← value h1 h2
    let minutes ← value m1 m2
    if hours ≤ 23 ∧ minutes ≤ 59 then some (sign * (hours * 3600 + minutes * 60)) else none
  match cs with
  | ['Z'] => some 0
  | ['+', h1, h2, ':', m1, m2] | ['+', h1, h2, m1, m2] => offset 1 h1 h2 m1 m2
  | ['-', h1, h2, ':', m1, m2] | ['-', h1, h2, m1, m2] => offset (-1) h1 h2 m1 m2
  | cs => if cs.map Char.toLower = ['u', 't', 'c'] then some 0 else none

end SeriesLang.Span

namespace SeriesLang

/-- How long before its value date a value is to be known. -/
structure Lag where
  nanos : Int
deriving DecidableEq, Repr

/-- A lag of whole seconds. -/
def Lag.ofSeconds (seconds : Int) : Lag :=
  ⟨seconds * 1000000000⟩

instance : Coe Int Lag := ⟨Lag.ofSeconds⟩

namespace Instant

/-- Move by calendar months and then by a span. -/
def shift? (t : Instant) (months delta : Int) : Option Instant :=
  (t.addMonths? months).bind (·.addSeconds? delta)

/-- The instant that lies a lag later. -/
def after? (t : Instant) (lag : Lag) : Option Instant :=
  t.addNanos? lag.nanos

/-- The instant that lies a lag earlier. -/
def before? (t : Instant) (lag : Lag) : Option Instant :=
  t.addNanos? (-lag.nanos)

end Instant

end SeriesLang
