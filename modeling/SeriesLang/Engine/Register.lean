import SeriesLang.Alias
import SeriesLang.Database.Formula
import SeriesLang.Engine.Basic
import SeriesLang.Query.Dependency

/-! # Registering formulas

A formula is registered if it is well formed and reads nothing that leads back to it. With it are
stored the names that it needs, and the needs of the formulas that need it are found again.
-/

namespace SeriesLang

/-- How a formula is registered. -/
structure RegisterOptions where
  /-- What is known of the formula, on top of what its series tell. -/
  metadata : Option Json := none
  /-- Are names that stand for nothing an error? -/
  rejectUnknown : Bool := true
  /-- May it take the place of a formula of its name? -/
  update : Bool := false

namespace Registration

/-- The needs of a formula as it would be stored. -/
def needs (r : Registry) (store : Store) (name : String) (e : Expr) : Query (List String) := do
  return (← Dependencies.ofFormula r store name e).names

/-- The needs of a dependent formula, if it is stored. -/
def dependentNeeds (r : Registry) (store : Store) (name : String) :
    Query (Option (String × List String)) := do
  match ← Query.formula name with
  | some e => return some (name, ← needs r store name e)
  | none => return none

/-- The metadata of a formula: what is stored, then that of its first series, then that of the caller. -/
def metadata (stored : Option Json) (derived : SeriesMeta) (given : Option Json) : Json :=
  let base := match stored with
    | some json => if json.isObject then json else .obj []
    | none => .obj []
  let base := base.merge derived.toJson
  match given with
  | some json => base.merge json
  | none => base

/-- What is to be written for a formula: itself, and the new needs of the formulas that depend on it. -/
def plan (r : Registry) (store : Store) (name text : String) (e : Expr) (options : RegisterOptions)
    (stored : Option Json) (dependents : List String) :
    Query (FormulaWrite × List (String × List String)) := do
  let found ← Dependencies.ofFormula r store name e
  if options.rejectUnknown then Query.ofExcept found.rejectUnknown
  let derived ← Dependencies.firstInfo store e
  let refreshed ← (Query.forEach (dependentNeeds r store) dependents).overlay [(name, e)]
  return (
    { name, text, hash := e.contentHash
      metadata := some (metadata stored (derived.getD {}) options.metadata)
      needs := found.names },
    refreshed.filterMap id)

end Registration

namespace Engine

/-- Register a formula; gives its id. -/
def register (name text : String) (options : RegisterOptions) : Action Nat := do
  let e ← Action.ofExcept (Expr.ofText text)
  Action.ofExcept ((← Action.engine).registry.checkTree e)
  let resolvedAt ← Action.sync
  let engine ← Action.engine
  let db ← Action.database
  if db.formulas.contains name && !options.update then
    throw (.formulaExists name)
  let stored := (db.formulas.row? name).map FormulaRow.metadata
  let (w, refreshed) ← Action.query
    (Registration.plan engine.registry engine.store name text e options stored (db.dependents name))
  let id ← Action.write (·.writeFormula w options.update refreshed (some resolvedAt))
  Action.clearCaches
  return id

/-- Delete a formula; was it stored? -/
def delete (name : String) : Action Bool := do
  let removed ← Action.write (fun db => .ok (db.deleteFormula name))
  Action.clearCaches
  return removed

/-- Merge metadata into that of a formula; is it stored? -/
def updateMetadata (name : String) (metadata : Json) : Action Bool := do
  match (← Action.database).formulas.row? name with
  | none => return false
  | some row => Action.write (fun db => .ok (db.setMetadata name (row.metadata.merge metadata)))

/-- Register the formulas of aliases; names that are stored are passed over. Gives what was
    registered. -/
def registerAll : List (String × Expr) → Action (List (String × String))
  | [] => return []
  | (name, e) :: rest => do
    if (← Action.database).formulas.contains name then registerAll rest
    else
      let _ ← register name e.canonical { rejectUnknown := false }
      return (name, e.canonical) :: (← registerAll rest)

/-- Register the formulas of tables of aliases. -/
def importAliases (arithmetic : List ArithmeticRow) (priority : List PriorityRow) :
    Action (List (String × String)) :=
  registerAll (ArithmeticRow.formulas arithmetic ++ PriorityRow.formulas priority)

/-- Replace the database by a backup. -/
def restore (backup : Option Database) : Action Unit := do
  match backup with
  | none => throw .missingBackup
  | some backup => Action.write (fun db => .ok ((), db.restore backup))
  Action.clearCaches

end Engine

end SeriesLang
