import SeriesLang.Operator.Basic
import SeriesLang.Time.Span

/-! # Dates

The operators that make timestamps.
-/

namespace SeriesLang.Operator

/-- The offset of a time zone that a keyword names. -/
def offsetOf (args : Arguments) (zone : String) : Except Error Int :=
  match Span.utcOffset? zone with
  | some offset => .ok offset
  | none => .error (args.failure s!"unsupported time zone `{zone}`")

/-- Read a date; in a time zone it is taken as the local time there. -/
def readDate (args : Arguments) : Except Error Value := do
  args.exclusive "tz" "naive"
  let text ← args.textAt 0
  let t ← match Instant.ofText? text with
    | some t => .ok t
    | none => .error (args.failure s!"cannot parse date `{text}`")
  match args.textKeyword? "tz" with
  | none => return .timestamp t
  | some zone =>
    let offset ← offsetOf args zone
    match t.addSeconds? (-offset) with
    | some t => return .timestamp t
    | none => .error (args.failure "date out of range")

/-- A date from its text. -/
def date : Operator :=
  { Operator.ofValues "date"
      { positional := [{ name := "strdate", type := .str }]
        keywords := [.optional "tz" .str, ⟨"naive", .bool, some (.bool false)⟩] }
      readDate with
    pushdown := true
    doc := "Parse an ISO-8601 date. `#:tz` (a UTC offset) and `#:naive` are exclusive." }

/-- The revision that is read, or the current time. -/
def readToday (args : Arguments) : Except Error Value := do
  args.exclusive "tz" "naive"
  match args.textKeyword? "tz" with
  | none => pure ()
  | some zone => let _ ← offsetOf args zone
  let context ← args.requireContext
  return .timestamp (context.revision.getD context.now)

/-- The date of the query. -/
def today : Operator :=
  { Operator.ofValues "today"
      { keywords := [⟨"naive", .bool, some (.bool false)⟩, .optional "tz" .str] }
      readToday with
    wantsContext := true
    doc := "The revision date of the query, or now. `#:tz` and `#:naive` are exclusive." }

/-- Move a timestamp by the units that the keywords give. -/
def shiftDate (args : Arguments) : Except Error Value := do
  let t ← args.instantAt 0
  let unit (name : String) : Int := (args.intKeyword? name).getD 0
  let months := (Word.ofInt? (unit "years" * 12)).bind (fun m => Word.ofInt? (m + unit "months"))
  let delta := Span.duration? (unit "weeks") (unit "days") (unit "hours") (unit "minutes")
  match months.bind (fun months => delta.bind (t.shift? months)) with
  | some t => return .timestamp t
  | none => .error (args.failure "shift out of range")

/-- A timestamp moved by calendar units. -/
def shifted : Operator :=
  { Operator.ofValues "shifted"
      { positional := [{ name := "date", type := .timestamp }]
        keywords := ["years", "months", "weeks", "days", "hours", "minutes"].map
          (⟨·, .int, some (.int 0)⟩) }
      shiftDate with
    pushdown := true
    doc := "Move a timestamp by calendar years/months and fixed weeks/days/hours/minutes." }

/-- A function of a timestamp as an operator. -/
def boundary (name : String) (f : Instant → Instant) : Operator :=
  { Operator.ofValues name { positional := [{ name := "date", type := .timestamp }] }
      (fun args => do return .timestamp (f (← args.instantAt 0))) with
    pushdown := true }

/-- The first day of the month. -/
def startOfMonth : Operator := boundary "start-of-month" Instant.startOfMonth

/-- The last day of the month. -/
def endOfMonth : Operator := boundary "end-of-month" Instant.endOfMonth

end SeriesLang.Operator
