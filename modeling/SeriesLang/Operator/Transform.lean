import SeriesLang.Operator.Source
import SeriesLang.Series.Aggregate

/-! # Transforms

The operators that make a series from one series.
-/

namespace SeriesLang.Operator

/-- A number cut to bounds. -/
def clampValue (low high v : Float) : Float :=
  if v < low then low else if high < v then high else v

/-- Cut the values of a series to bounds, or drop what lies outside. -/
def clipSeries (args : Arguments) : Except Error Value := do
  let s ← args.seriesAt 0
  let low := (args.numberKeyword? "min").getD (-Decimal.infinity)
  let high := (args.numberKeyword? "max").getD Decimal.infinity
  if high < low then
    let low := Decimal.text .plain low
    let high := Decimal.text .plain high
    .error (args.failure s!"min {low} is greater than max {high}")
  else
    let s := if args.boolKeyword "replacemax" true then s else s.retain (fun _ v => v ≤ high)
    let s := if args.boolKeyword "replacemin" true then s else s.retain (fun _ v => low ≤ v)
    if low ≤ high || s.points.isEmpty then return .series (s.mapValues (clampValue low high))
    else .error (.aborted .unorderedBounds)

/-- Cut values to bounds. -/
def clip : Operator :=
  { Operator.ofValues "clip"
      { positional := [{ name := "series", type := .series }]
        keywords := [.optional "min" .number, .optional "max" .number,
          ⟨"replacemin", .bool, some (.bool true)⟩, ⟨"replacemax", .bool, some (.bool true)⟩] }
      clipSeries with
    pushdown := true
    doc := "Clamp the values of a series between `#:min` and `#:max`; "
      ++ "`#:replacemin #f` / `#:replacemax #f` drop the out-of-range points instead." }

/-- Keep the points between two instants. -/
def slice : Operator :=
  { Operator.ofValues "slice"
      { positional := [{ name := "series", type := .series }]
        keywords := [.optional "fromdate" .timestamp, .optional "todate" .timestamp] }
      (fun args => do
        let s ← args.seriesAt 0
        return .series
          (s.restrict ⟨args.instantKeyword? "fromdate", args.instantKeyword? "todate"⟩)) with
    pushdown := true
    doc := "Keep the points between `#:fromdate` and `#:todate` (inclusive)." }

/-- Aggregate over a calendar grid. -/
def resample : Operator :=
  { Operator.ofValues "resample"
      { positional := [{ name := "series", type := .series }, { name := "freq", type := .str },
          ⟨"method", .str, some (.str "mean")⟩] }
      (fun args => do
        let text ← args.textAt 1
        let f ← match Frequency.ofText? text with
          | some f => .ok f
          | none => .error (args.failure s!"bad frequency `{text}`")
        let method ← args.textAt 2
        match Aggregate.ofBucketName? method with
        | some a => return .series (← orAbort ((← args.seriesAt 0).resample f a))
        | none => .error (args.failure s!"bad resampling method `{method}`")) with
    doc := "Aggregate a series over a regular grid: `D`, `H`, `T`/`min`, `MS`." }

/-- Running totals. -/
def cumsum : Operator :=
  { Operator.ofValues "cumsum" { positional := [{ name := "series", type := .series }] }
      (fun args => do return .series (← args.seriesAt 0).cumulative) with
    doc := "Cumulative sum of a series." }

/-- Aggregate over trailing windows. -/
def rolling : Operator :=
  { Operator.ofValues "rolling"
      { positional := [{ name := "series", type := .series }, { name := "window", type := .int }]
        keywords := [⟨"method", .str, some (.str "mean")⟩] }
      (fun args => do
        let count ← match args.positionalAt 1 with
          | .int n =>
            if 1 ≤ n then .ok n.toNat
            else .error (args.failure "window must be a positive number of points")
          | _ => .error (args.failure "window must be a positive number of points")
        let method := (args.textKeyword? "method").getD "mean"
        match Aggregate.ofRollingName? method with
        | some a => return .series ((← args.seriesAt 0).rolling count a)
        | none => .error (args.failure s!"bad rolling method `{method}`")) with
    doc := "Aggregate over a trailing window of `window` points. `#:method` is one of "
      ++ "mean (default), sum, min, max, median, std." }

/-- The value of a keyword as an integer; zero if it is not given. -/
def intSlot (call : Call) (name : String) (context : Context) (path : Path) : Body Int :=
  match call.keyword? name with
  | none => .done 0
  | some e => do
    match ← Body.value context e name with
    | .int n => return n
    | v => .fail (.typeMismatch call.op path name ParamType.int.describe v.typeName)

/-- The value of an argument as a series. -/
def seriesSlot (call : Call) (index : Nat) (context : Context) (path : Path) : Body Series :=
  match call.args[index]? with
  | none => .fail (.evaluation call.op path "missing `series` argument")
  | some e => do
    match ← Body.value context e (toString index) with
    | .series s => return s
    | v => .fail (.typeMismatch call.op path "series" ParamType.series.describe v.typeName)

/-- The window that a shift by a span moves onto another one; a bound that cannot be moved back does
    not bound. -/
def windowBefore (w : Window) (delta : Int) : Window :=
  ⟨w.lower.bind (·.addSeconds? (-delta)), w.upper.bind (·.addSeconds? (-delta))⟩

/-- Shift the value dates of a series. It is read over the window moved back by the shift, so that
    the shifted points cover the window. -/
def shiftSeries (call : Call) (context : Context) (path : Path) : Body Value := do
  let weeks ← intSlot call "weeks" context path
  let days ← intSlot call "days" context path
  let hours ← intSlot call "hours" context path
  let minutes ← intSlot call "minutes" context path
  match Span.duration? weeks days hours minutes with
  | none => .fail (.evaluation call.op path "shift out of range")
  | some delta =>
    let before := { context with window := windowBefore context.window delta }
    let s ← seriesSlot call 0 before path
    return .series ((s.moved delta).restrict context.window)

/-- Shift in time. -/
def timeShifted : Operator :=
  { Operator.ofTree "time-shifted"
      { positional := [{ name := "series", type := .series }]
        keywords := ["weeks", "days", "hours", "minutes"].map (⟨·, .int, some (.int 0)⟩) }
      shiftSeries with
    doc := "Shift the value dates of a series by `#:weeks #:days #:hours #:minutes`." }

/-- Read a series as of another revision. -/
def readAsOf (call : Call) (context : Context) (path : Path) : Body Value := do
  let revision ← instantSlot call 0 "revision" context path
  let s ← seriesSlot call 1 { context with revision := some revision } path
  return .series s

/-- Evaluate as of another revision. -/
def asOf : Operator :=
  { Operator.ofTree "asof"
      { positional := [{ name := "revision", type := .timestamp },
          { name := "series", type := .series }] }
      readAsOf with
    doc := "Evaluate the series argument as of another revision date." }

end SeriesLang.Operator
