import SeriesLang.Expr.Printer
import SeriesLang.Limits
import SeriesLang.Operator.Basic
import SeriesLang.Time.Frequency

/-! # Sources

The operators that bring series into a formula: `series` reads one by name, `constant` makes one up.
-/

namespace SeriesLang.Operator

/-- A count of points as an integer argument gives it; a negative one is none. -/
def countOf (n : Int) : Nat :=
  n.toNat

/-- The options that the keywords of a `series` application ask for. -/
def seriesOptions (args : Arguments) : SeriesOptions :=
  { fill := match args.keyword "fill" with
      | .str text => FillPolicy.ofText? text
      | v => v.number?.map .value
    limit := (args.intKeyword? "limit").map countOf
    weight := args.numberKeyword? "weight" }

/-- Read a series, drop its last points and set its options. -/
def readSeries (args : Arguments) : Body Value := do
  let context ← Body.ofExcept args.requireContext
  let name ← Body.ofExcept (args.textAt 0)
  let s ← Body.series context name
  let s := match args.intKeyword? "prune" with
    | some n => s.pruneLast (countOf n)
    | none => s
  return .series (s.withOptions (seriesOptions args))

/-- The name in the first argument, if it is a string or a symbol. -/
def firstName (call : Call) : List String :=
  (call.args.head?.bind Expr.text?).toList

/-- The text of the keywords of an application; a dash if it has none. -/
def keywordsText (call : Call) : String :=
  if call.kwargs.isEmpty then "-"
  else String.intercalate ", " (call.kwargs.map (fun (name, e) => name ++ ":" ++ e.canonical))

/-- A `series` application makes its row stand for the series. -/
def seriesEditor (call : Call) : List EditorStep :=
  match call.seriesName? with
  | some name => [.series name (keywordsText call)]
  | none => []

/-- Read a series by name. -/
def series : Operator where
  name := "series"
  signature :=
    { positional := [{ name := "name", type := .str }]
      keywords := [.optional "fill" .fill, .optional "limit" .int, .optional "weight" .number,
        .optional "prune" .int] }
  implementation := .values readSeries
  wantsContext := true
  finder := some firstName
  editor := some seriesEditor
  pushdown := true
  doc := "Fetch a stored series or evaluate a named formula. Keywords: `fill` "
    ++ "(number, \"ffill\", \"bfill\"), `limit`, `weight`, `prune`."

/-- The points of a grid from one of them up to an end, at most `fuel` of them, in front of those seen
    before (the last one first), and whether there are more. -/
def gridFrom (f : Frequency) (last : Instant) :
    Nat → Option Instant → List Instant → Except Abort (List Instant × Bool)
  | _, none, seen => .ok (seen, false)
  | 0, some t, seen => .ok (seen, decide (t ≤ last))
  | fuel + 1, some t, seen =>
    if t ≤ last then
      match f.next t with
      | .ok next => gridFrom f last fuel next (t :: seen)
      | .error e => .error e
    else .ok (seen, false)

/-- The points of a grid between two instants, in order, and whether there are more than can be
    generated. -/
def gridBetween (f : Frequency) (first last : Instant) : Except Abort (List Instant × Bool) := do
  let (seen, more) ← gridFrom f last Limits.generatedPoints (← f.ceil first) []
  return (seen.reverse, more)

/-- Turn an aborted computation into an error. -/
def orAbort {α : Type} : Except Abort α → Except Error α
  | .ok a => .ok a
  | .error a => .error (.aborted a)

/-- The value at every point of a grid in a horizon, as far as the query asks for it. Before its
    revision date there is nothing. -/
def makeConstant (args : Arguments) : Except Error Value := do
  let context ← args.requireContext
  let v ← args.numberAt 0
  let revision ← args.instantAt 4
  if context.revision.any (fun r => decide (r < revision)) then return .series .empty
  let text ← args.textAt 3
  let f ← match Frequency.ofText? text with
    | some f => .ok f
    | none => .error (args.failure s!"bad frequency `{text}`")
  let horizon := (Window.between (← args.instantAt 1) (← args.instantAt 2)).intersect context.window
  match horizon.lower, horizon.upper with
  | some first, some last =>
    let (grid, more) ← orAbort (gridBetween f first last)
    if more && !v.isNaN then
      let limit := Limits.generatedPoints
      .error (args.failure s!"more than {limit} points requested")
    else return .series (.ofPoints (grid.map (·, v)))
  | _, _ => return .series .empty

/-- The value of an argument as a timestamp, or of a string that reads as one. -/
def instantSlot (call : Call) (index : Nat) (param : String) (context : Context) (path : Path) :
    Body Instant :=
  match call.args[index]? with
  | none => .fail (.evaluation call.op path s!"missing `{param}` argument")
  | some e => do
    match ← Body.value context e (toString index) with
    | .timestamp t => return t
    | .str text =>
      match Instant.ofText? text with
      | some t => return t
      | none => .fail (.evaluation call.op path s!"bad {param} `{text}`")
    | v => .fail (.typeMismatch call.op path param ParamType.timestamp.describe v.typeName)

/-- A constant series over a horizon. -/
def constant : Operator where
  name := "constant"
  signature :=
    { positional := [{ name := "value", type := .number }, { name := "fromdate", type := .timestamp },
        { name := "todate", type := .timestamp }, { name := "freq", type := .str },
        { name := "revdate", type := .timestamp }] }
  implementation := .values (fun args => .ofExcept (makeConstant args))
  wantsContext := true
  finder := some (fun _ => [])
  insertionDates := some (fun call context path => do
    return [← instantSlot call 4 "revdate" context path])
  doc := "A constant series over a horizon and a grid, visible from `revdate` on."

end SeriesLang.Operator
