import SeriesLang.Engine.Basic
import SeriesLang.Query.Staircase

/-! # Asking an engine

Evaluation, staircases and histories of what a request names: an expression, or a series by its name.
-/

namespace SeriesLang

/-- How a request is to be answered. -/
structure ReadOptions where
  context : Context
  /-- Is the request withdrawn? -/
  cancelled : Bool := false

/-- What a request asks for: a text that starts with a parenthesis, blanks aside, is an expression; any
    other is the name of a series. -/
def Expr.ofRequest (text : String) : Except Error Expr :=
  let trimmed := Text.trimStart text
  if trimmed.startsWith "(" then Expr.ofText trimmed else .ok (.series text)

/-- The value of a request that has to be a series. -/
def Value.expectSeries : Value → Except Error Series
  | .series s => .ok s
  | v =>
    let type := v.typeName
    .error (.evaluation "eval" .root s!"expression yields a {type}, not a series")

namespace Engine

/-- The value of a request. -/
def evaluate (text : String) (options : ReadOptions) : Action Value := do
  let _ ← Action.sync
  let e ← Action.ofExcept (Expr.ofRequest text)
  let env := (← Action.engine).env options.cancelled
  Action.query (env.evaluate options.context e)

/-- The series of a request. -/
def evaluateSeries (text : String) (options : ReadOptions) : Action Series := do
  let v ← evaluate text options
  Action.ofExcept v.expectSeries

/-- Does an expression look at one instant at a time? The answer is kept by its hash. -/
def isPointwise (e : Expr) : Action Bool := do
  let engine ← Action.engine
  match engine.pointwise.get? e.contentHash with
  | (some answer, pointwise) =>
    modify (fun s => { s with engine := { s.engine with pointwise } })
    return answer
  | (none, _) =>
    let answer ← Action.query (Staircase.isPointwise engine.registry e)
    modify (fun s => { s with
      engine := { s.engine with pointwise := s.engine.pointwise.insert e.contentHash answer } })
    return answer

/-- The staircase of a request, and how it was computed. -/
def staircase (text : String) (lag : Lag) (options : ReadOptions) :
    Action (Series × Staircase.Route) := do
  let _ ← Action.sync
  let e ← Action.ofExcept (Expr.ofRequest text)
  let pointwise ← isPointwise e
  let env := (← Action.engine).env options.cancelled
  Action.query (Staircase.compute env options.context lag pointwise e)

/-- The staircase of a request from its evaluations at every revision date. -/
def naiveStaircase (text : String) (lag : Lag) (options : ReadOptions) : Action Series := do
  let _ ← Action.sync
  let e ← Action.ofExcept (Expr.ofRequest text)
  let env := (← Action.engine).env options.cancelled
  Action.query (Staircase.naive env options.context lag e)

/-- The series of an expression at each of its revision dates in a window. -/
def historyOf (env : Env) (context : Context) (bound : Window) (e : Expr) :
    Query (List (Instant × Series)) := do
  let dates ← Staircase.revisionDates env context e bound
  Query.forEach (fun date => do
    let v ← env.evaluate { context with revision := some date } e
    let s ← Query.ofExcept v.expectSeries
    return (date, s)) dates

/-- The series of a request at each of its revision dates in a window. -/
def history (text : String) (bound : Window) (options : ReadOptions) :
    Action (List (Instant × Series)) := do
  let _ ← Action.sync
  let e ← Action.ofExcept (Expr.ofRequest text)
  let env := (← Action.engine).env options.cancelled
  Action.query (historyOf env options.context bound e)

end Engine

end SeriesLang
