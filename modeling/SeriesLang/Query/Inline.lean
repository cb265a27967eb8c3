import SeriesLang.Expr.Printer
import SeriesLang.Limits
import SeriesLang.Query.Basic

/-! # Inlining

An expression with the formulas that it reads written in place of their names. A `series` application
with keywords stays, because they say how its series is to be treated.
-/

namespace SeriesLang.Expr

mutual

/-- Replace the formulas that an expression names by what another function makes of them. -/
def inlineWith (deeper : Expr → Query Expr) : Expr → Query Expr
  | .literal l => .done (.literal l)
  | .symbol name => .done (.symbol name)
  | .call ⟨op, args, kwargs⟩ => do
    let tree ← match (⟨op, args, kwargs⟩ : Call).seriesName? with
      | some name => if kwargs.isEmpty then Query.formula name else .done none
      | none => .done none
    match tree with
    | some tree => deeper tree
    | none =>
      let args ← inlineArgs deeper args
      let kwargs ← inlineKwargs deeper kwargs
      return .call ⟨op, args, kwargs⟩

/-- Inline in positional arguments. -/
def inlineArgs (deeper : Expr → Query Expr) : List Expr → Query (List Expr)
  | [] => .done []
  | e :: rest => do
    let e ← inlineWith deeper e
    let rest ← inlineArgs deeper rest
    return e :: rest

/-- Inline in keyword values. -/
def inlineKwargs (deeper : Expr → Query Expr) : List (String × Expr) → Query (List (String × Expr))
  | [] => .done []
  | (name, e) :: rest => do
    let e ← inlineWith deeper e
    let rest ← inlineKwargs deeper rest
    return (name, e) :: rest

end

/-- Inline formulas in formulas, with chains of at most so many. -/
def inlineAt : Nat → Expr → Query Expr
  | 0, e => .fail (.recursionLimit Limits.resolveDepth ⟨e.canonical⟩)
  | room + 1, e => inlineWith (inlineAt room) e

/-- The expression with the formulas that it reads in place of their names. -/
def inlineFormulas (e : Expr) : Query Expr :=
  inlineAt (Limits.resolveDepth + 1) e

end SeriesLang.Expr
