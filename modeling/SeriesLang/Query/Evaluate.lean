import SeriesLang.Limits
import SeriesLang.Operator.Registry
import SeriesLang.Query.Basic
import SeriesLang.Store.Basic

/-! # Evaluation

The value of an expression over a store of series, with formulas looked up by name. Every application
goes one level down, and the number of levels is limited, so evaluation always ends.
-/

namespace SeriesLang

/-- Why a query stops before its end. -/
inductive Interrupt where
  | cancelled
  | expired
deriving DecidableEq, Repr

/-- What queries are run against, beside the formulas. -/
structure Env where
  registry : Registry
  store : Store
  /-- Series that are read in place of stored ones, sorted by name. -/
  leaves : List (String × Series) := []
  maxDepth : Nat := Limits.defaultDepth
  interrupt : Option Interrupt := none

/-- The value of a constant. -/
def Literal.toValue : Literal → Value
  | .int n => .int n
  | .float v => .float v
  | .str s => .str s
  | .bool b => .bool b

namespace Env

/-- Stop here if the query is interrupted. -/
def checkpoint (env : Env) (path : Path) : Except Error Unit :=
  match env.interrupt with
  | some .cancelled => .error (.cancelled path)
  | some .expired => .error (.deadlineExceeded path)
  | none => .ok ()

/-- How arguments are evaluated: in a context, below a node, in one of its slots. -/
abbrev Evaluator := Context → Path → String → Expr → Query Value

/-- A stored series over the window and at the revision of a context. -/
def primary (env : Env) (context : Context) (path : Path) (name : String) : Except Error Series :=
  match env.store.get? name context.window context.revision with
  | some s => .ok s
  | none => .error (.evaluation "series" path s!"no such series `{name}`")

/-- The series of a name: one that is read in place of stored ones, or a formula, or a stored series.
    It is cut to the window. -/
def fetch (env : Env) (eval : Evaluator) (context : Context) (path : Path) (name : String) :
    Query Series := do
  Query.ofExcept (env.checkpoint path)
  match Sorted.get? name env.leaves with
  | some s => return s.restrict context.window
  | none =>
    match ← Query.formula name with
    | none => Query.ofExcept (env.primary context path name)
    | some tree =>
      match ← eval context path name tree with
      | .series s => return s.restrict context.window
      | v =>
        let type := v.typeName
        .fail (.evaluation "series" path s!"formula `{name}` yields a {type}, not a series")

/-- Answer the requests of an operator that stands at a path. -/
def answer {α : Type} (env : Env) (eval : Evaluator) (path : Path) : Body α → Query α
  | .done a => .done a
  | .fail e => .fail e
  | .eval context e slot next => (eval context path slot e).bind (fun v => env.answer eval path (next v))
  | .fetch context name next =>
    (env.fetch eval context path name).bind (fun s => env.answer eval path (next s))

/-- Evaluate positional arguments, counted from an index. -/
def evalArgs (eval : Evaluator) (context : Context) (path : Path) : Nat → List Expr → Query (List Value)
  | _, [] => .done []
  | index, e :: rest => do
    let v ← eval context path (toString index) e
    let vs ← evalArgs eval context path (index + 1) rest
    return v :: vs

/-- Evaluate keyword values. -/
def evalKwargs (eval : Evaluator) (context : Context) (path : Path) :
    List (String × Expr) → Query (List (String × Value))
  | [] => .done []
  | (name, e) :: rest => do
    let v ← eval context path name e
    let vs ← evalKwargs eval context path rest
    return (name, v) :: vs

/-- Evaluate an application at its path. -/
def evalCall (env : Env) (eval : Evaluator) (context : Context) (path : Path) (call : Call) :
    Query Value := do
  Query.ofExcept (env.checkpoint path)
  let o ← Query.ofExcept (env.registry.find call.op path)
  Query.ofExcept (o.signature.checkCall call path)
  match o.implementation with
  | .tree run => env.answer eval path (run call context path)
  | .values run =>
    let positional ← evalArgs eval context path 0 call.args
    let keywords ← evalKwargs eval context path call.kwargs
    let bound ← Query.ofExcept (o.signature.bind call.op path positional keywords)
    env.answer eval path (run
      { op := call.op, path, positional := bound.positional, keywords := bound.keywords,
        context := if o.wantsContext then some context else none })

/-- Evaluate an expression with so many levels left. -/
def evalAt (env : Env) : Nat → Evaluator
  | _, _, _, _, .literal l => .done l.toValue
  | _, _, _, _, .symbol name => .done (.str name)
  | 0, _, parent, slot, .call call => .fail (.recursionLimit env.maxDepth (parent.child slot call.op))
  | levels + 1, context, parent, slot, .call call =>
    env.evalCall (evalAt env levels) context (parent.child slot call.op) call

/-- Evaluate an expression. -/
def evaluate (env : Env) (context : Context) (e : Expr) : Query Value :=
  env.evalAt env.maxDepth context .root "" e

/-- Answer the requests of an operator outside of an evaluation. -/
def answerTop {α : Type} (env : Env) (path : Path) (body : Body α) : Query α :=
  env.answer (env.evalAt env.maxDepth) path body

end Env

end SeriesLang
