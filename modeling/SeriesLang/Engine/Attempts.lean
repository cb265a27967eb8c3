import SeriesLang.Engine.Register

/-! # Registering while others write

Others may write to the database while a formula is being registered. A write that finds another epoch than
the one it was planned in is turned away, and the formula is planned again, a few times at most.
-/

namespace SeriesLang

/-- What others make of the database at each moment at which they can get in between. -/
abbrev Others := Nat → Database → Database

/-- The others while they do nothing. -/
def Others.idle : Others :=
  fun _ db => db

namespace Action

variable {α : Type}

/-- Others write to the database. -/
def interrupt (others : Database → Database) : Action Unit :=
  fun s => (.ok (), { s with database := others s.database })

/-- Do something else if a write is turned away because others have written. -/
def ifTurnedAway (x y : Action α) : Action α :=
  fun s =>
    match x s with
    | (.error (.concurrentWrite _ _), t) => y t
    | outcome => outcome

end Action

namespace Engine

/-- Plan and write a formula. Others can get in when the epoch has been read, and once more when the formula
    has been planned. -/
def attempt (others : Others) (number : Nat) (name text : String) (e : Expr) (options : RegisterOptions) :
    Action Nat := do
  let resolvedAt ← Action.sync
  Action.interrupt (others (2 * number))
  let engine ← Action.engine
  let db ← Action.database
  if db.formulas.contains name && !options.update then
    throw (.formulaExists name)
  let stored := (db.formulas.row? name).map FormulaRow.metadata
  let (w, refreshed) ← Action.query
    (Registration.plan engine.registry engine.store name text e options stored (db.dependents name))
  Action.interrupt (others (2 * number + 1))
  let id ← Action.write (·.writeFormula w options.update refreshed (some resolvedAt))
  Action.clearCaches
  return id

/-- Plan and write a formula, and so many times again if others have written. -/
def attempts (others : Others) (number : Nat) (name text : String) (e : Expr) (options : RegisterOptions) :
    Nat → Action Nat
  | 0 => attempt others number name text e options
  | again + 1 =>
    (attempt others number name text e options).ifTurnedAway
      (attempts others (number + 1) name text e options again)

/-- Register a formula while others write; gives its id. -/
def registerAmid (others : Others) (name text : String) (options : RegisterOptions) : Action Nat := do
  let e ← Action.ofExcept (Expr.ofText text)
  Action.ofExcept ((← Action.engine).registry.checkTree e)
  attempts others 0 name text e options (Limits.writeAttempts - 1)

end Engine

end SeriesLang
