import SeriesLang.Engine.Register
import SeriesLang.Expr.Rename

/-! # Renaming references

Every formula that reads a series by one name is made to read it by another, which must not be in use
yet. The needs of the formulas that depend on them are found again.
-/

namespace SeriesLang

namespace Renaming

/-- The stored formulas with their texts and trees, in order. -/
def readAll (db : Database) : Except Error (List (String × String × Expr)) :=
  db.formulas.entries.mapM (fun (name, e) => do return (name, e.row.text, ← Expr.ofText e.row.text))

/-- The formulas that read a series by a name. -/
def readers (series : String) (formulas : List (String × String × Expr)) :
    List (String × String × Expr) :=
  formulas.filter (fun (_, _, e) => e.readsSeries series)

/-- The names of changed formulas and of those that depend on them, in order. -/
def affected (db : Database) (changed : List (String × Expr)) : List String :=
  (changed.flatMap (fun (name, _) => name :: db.dependents name)).foldl
    (fun acc name => Sorted.put name () acc) [] |>.map Prod.fst

/-- What is to be written for an affected formula. A formula that does not change itself keeps its
    text. -/
def writeFor (r : Registry) (store : Store) (texts : List (String × String))
    (changed : List (String × Expr)) (name : String) : Query (Option FormulaWrite) := do
  match ← Query.formula name with
  | none => return none
  | some e =>
    let needs ← Registration.needs r store name e
    let text :=
      if Sorted.contains name changed then e.canonical
      else (Sorted.get? name texts).getD e.canonical
    return some { name, text, hash := e.contentHash, needs }

end Renaming

namespace Engine

/-- Make every formula that reads `old` read `new` instead; gives their names. -/
def renameReferences (old new : String) : Action (List String) := do
  let _ ← Action.sync
  let engine ← Action.engine
  let db ← Action.database
  let formulas ← Action.ofExcept (Renaming.readAll db)
  let conflicts := (Renaming.readers new formulas).map Prod.fst
  if !conflicts.isEmpty then
    throw (.renameConflict conflicts)
  let changed := (Renaming.readers old formulas).map
    (fun (name, _, e) => (name, e.renameSeries old new))
  if changed.isEmpty then return []
  let texts := formulas.map (fun (name, text, _) => (name, text))
  let writes ← Action.query
    ((Query.forEach (Renaming.writeFor engine.registry engine.store texts changed)
      (Renaming.affected db changed)).overlay changed)
  let _ ← Action.write (fun db => .ok (db.replaceFormulas (writes.filterMap id)))
  Action.clearCaches
  return changed.map Prod.fst

end Engine

end SeriesLang
