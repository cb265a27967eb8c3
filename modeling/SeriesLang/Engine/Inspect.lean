import SeriesLang.Engine.Basic
import SeriesLang.Expr.Fold
import SeriesLang.Query.Dependency
import SeriesLang.Query.Editor
import SeriesLang.Query.Inline

/-! # Looking at stored formulas

Their expanded texts, their components and the tables of them.
-/

namespace SeriesLang.Engine

/-- A stored formula with the formulas that it reads written out and its constants folded. -/
def expanded (name : String) : Action (Option Expr) := do
  let _ ← Action.sync
  Action.query (do
    match ← Query.formula name with
    | some e => return some (← e.inlineFormulas).foldConstants
    | none => return none)

/-- The text of a stored formula. -/
def text (name : String) : Action (Option String) := do
  return ((← Action.database).formulas.row? name).map FormulaRow.text

/-- The names that a stored formula reads itself. The text that is looked at is the stored one or the
    expanded one. -/
def components (name : String) (expand : Bool) : Action Dependencies := do
  let text ←
    if expand then do pure ((← expanded name).map Expr.canonical)
    else text name
  match text with
  | none => return []
  | some text =>
    let e ← Action.ofExcept (Expr.ofText text)
    let engine ← Action.engine
    Action.query (Dependencies.direct engine.registry engine.store e)

/-- The table of components of a stored formula. -/
def componentTable (name : String) : Action (Option (List ComponentRow)) := do
  let _ ← Action.sync
  let engine ← Action.engine
  Action.query (do
    match ← Query.formula name with
    | some e => return some (← ComponentRow.table engine.registry engine.store name e)
    | none => return none)

end SeriesLang.Engine
