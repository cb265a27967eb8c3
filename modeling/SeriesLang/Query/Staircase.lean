import SeriesLang.Query.Dependency
import SeriesLang.Query.Evaluate
import SeriesLang.Time.Index

/-! # Staircases

A series with each value as it was known a fixed time before its value date. It is put together from
evaluations at every revision date. Where all operators look at one instant at a time, a single
evaluation over the staircases of the stored series does the same.
-/

namespace SeriesLang

/-- Follow a name that stands at the end of a chain of formulas: through its formula, if it has one and
    the chain may get longer. -/
def Query.followFormula {α : Type} (stack : List String) (leaf : α)
    (deeper : Option (List String → Expr → Query α)) (name : String) : Query α :=
  if stack.contains name then .fail (.cyclicFormula name)
  else match deeper with
    | none => .fail (.recursionLimit Limits.resolveDepth (Dependencies.chain stack))
    | some go => do
      match ← Query.formula name with
      | some tree => go (stack ++ [name]) tree
      | none => return leaf

namespace Staircase

/-- Do the keywords of a `series` application look at one instant at a time? -/
def keywordsArePointwise (call : Call) : Bool :=
  if (call.keyword? "prune").isSome || (call.keyword? "limit").isSome then false
  else match call.keyword? "fill" with
    | none => true
    | some e =>
      match e.text? with
      | some text => (FillPolicy.ofText? text).any FillPolicy.isPointwise
      | none => e.number?.isSome

/-- Do all applications look at one instant at a time, with what they read by name? -/
def callsArePointwise (r : Registry) (follow : String → Query Bool) : List Call → Query Bool
  | [] => .done true
  | call :: rest =>
    if (r.get? call.op).any Operator.pushdown then
      match call.seriesName? with
      | none => callsArePointwise r follow rest
      | some name =>
        if keywordsArePointwise call then do
          if ← follow name then callsArePointwise r follow rest else return false
        else .done false
    else .done false

/-- Does an expression at the end of a chain of formulas look at one instant at a time? -/
def isPointwiseAt (r : Registry) : Nat → List String → Expr → Query Bool
  | 0, stack, e => callsArePointwise r (Query.followFormula stack true none) e.calls
  | room + 1, stack, e =>
    callsArePointwise r (Query.followFormula stack true (some (isPointwiseAt r room))) e.calls

/-- Does an expression, with the formulas that it reads, look at one instant at a time? -/
def isPointwise (r : Registry) (e : Expr) : Query Bool :=
  isPointwiseAt r Limits.resolveDepth [] e

/-- The revision dates that applications have of their own, with those of what they read by name. -/
def datesOfCalls (env : Env) (context : Context) (follow : String → Query (List Instant)) :
    List Call → Query (List Instant)
  | [] => .done []
  | call :: rest => do
    let path : Path := ⟨call.op⟩
    let own ← match (env.registry.get? call.op).bind Operator.insertionDates with
      | some dates => env.answerTop path (dates call context path)
      | none => .done []
    let below ← match call.seriesName? with
      | some name => follow name
      | none => .done []
    let others ← datesOfCalls env context follow rest
    return own ++ below ++ others

/-- The revision dates that the applications of an expression at the end of a chain of formulas have of
    their own. -/
def ownDatesAt (env : Env) (context : Context) : Nat → List String → Expr → Query (List Instant)
  | 0, stack, e => datesOfCalls env context (Query.followFormula stack [] none) e.calls
  | room + 1, stack, e =>
    datesOfCalls env context
      (Query.followFormula stack [] (some (ownDatesAt env context room))) e.calls

/-- The stored series that an expression reads, directly or through formulas. -/
def leaves (env : Env) (e : Expr) : Query (List String) := do
  return (← Dependencies.transitive env.registry env.store e).primaries

/-- The insertion dates of a stored series in a window. -/
def leafDates (env : Env) (bound : Window) (leaf : String) : Query (List Instant) := do
  Query.ofExcept (env.checkpoint ⟨leaf⟩)
  return env.store.insertionDates leaf bound

/-- The dates in a window at which the value of an expression may change: the insertion dates of the
    stored series that it reads, and the revision dates that its operators have of their own. -/
def revisionDates (env : Env) (context : Context) (e : Expr) (bound : Window) :
    Query (List Instant) := do
  let stored ← Query.forEach (leafDates env bound) (← leaves env e)
  let own ← ownDatesAt env context Limits.resolveDepth [] e
  return (Index.union (stored ++ own.map ([·]))).filter bound.contains

/-- The value as a series. -/
def expectSeries : Value → Except Error Series
  | .series s => .ok s
  | v =>
    let type := v.typeName
    .error (.evaluation "staircase" .root s!"tree yields a {type}, not a series")

/-- Add the slices of the evaluations at each date, one after the other. -/
def replay (env : Env) (context : Context) (e : Expr) (lag : Lag) :
    Series → List Instant → Query Series
  | s, [] => .done s
  | s, date :: rest =>
    match date.after? lag with
    | none => replay env context e lag s rest
    | some _ => do
      let v ← env.evaluate { context with revision := some date } e
      let snapshot ← Query.ofExcept (expectSeries v)
      replay env context e lag (s.insertAll (stairSlice lag date rest.head? snapshot)) rest

/-- The staircase of an expression from its evaluations at every revision date. -/
def naive (env : Env) (context : Context) (lag : Lag) (e : Expr) : Query Series := do
  let dates ← revisionDates env context e (stairBound lag context.window)
  replay env context e lag .empty dates

/-- The staircase of a stored series, under its name. -/
def leafStaircase (env : Env) (context : Context) (lag : Lag) (leaf : String) :
    Query (Option (String × Series)) := do
  Query.ofExcept (env.checkpoint ⟨leaf⟩)
  return (env.store.staircase? leaf lag context.window).map (leaf, ·)

/-- The staircase of an expression from one evaluation over the staircases of the stored series. -/
def optimized (env : Env) (context : Context) (lag : Lag) (e : Expr) : Query Series := do
  match ← leaves env e with
  | [] => return .empty
  | names =>
    let stairs ← Query.forEach (leafStaircase env context lag) names
    let v ← { env with leaves := stairs.filterMap id }.evaluate { context with revision := none } e
    Query.ofExcept (expectSeries v)

/-- How a staircase was computed. -/
inductive Route where
  | naive
  | optimized
deriving DecidableEq, Repr

/-- The word for a route. -/
def Route.text : Route → String
  | .naive => "Naive"
  | .optimized => "Optimized"

/-- The staircase of an expression, by the short route if it is known to look at one instant at a time. -/
def compute (env : Env) (context : Context) (lag : Lag) (pointwise : Bool) (e : Expr) :
    Query (Series × Route) := do
  if pointwise then return (← optimized env context lag e, .optimized)
  else return (← naive env context lag e, .naive)

end Staircase

end SeriesLang
