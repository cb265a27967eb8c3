import SeriesLang.Config
import SeriesLang.Database.Basic
import SeriesLang.Operator.Builtin
import SeriesLang.Query.Cached
import SeriesLang.Query.Evaluate

/-! # Engines

An engine answers queries over a store of series and a database of formulas, which several engines may
share. It keeps formulas that it has read; before a query it gives them up if the epoch of the database
has moved since.
-/

namespace SeriesLang

/-- What an engine has beside the database. -/
structure Engine where
  registry : Registry
  store : Store
  config : Config
  /-- The formulas that were read last. -/
  trees : FormulaCache
  /-- The expressions that were last told to look at one instant at a time or not, by their hash. -/
  pointwise : Cache String Bool
  /-- The epoch that the caches follow. -/
  seenEpoch : Int

/-- An engine and its database. -/
structure Session where
  engine : Engine
  database : Database

/-- What an engine does: it may change the session, also when it fails. -/
abbrev Action (α : Type) := ExceptT Error (StateM Session) α

namespace Engine

/-- A new engine on a database. -/
def create (store : Store) (config : Config) (db : Database) : Engine where
  registry := .builtin
  store := store
  config := config
  trees := .create config.cacheEntries
  pointwise := .create config.cacheEntries
  seenEpoch := db.epoch

/-- Give up everything that is kept. -/
def clearCaches (e : Engine) : Engine :=
  { e with trees := e.trees.clear, pointwise := e.pointwise.clear }

/-- Follow the epoch of a database. -/
def sync (e : Engine) (db : Database) : Engine :=
  if e.seenEpoch = db.epoch then e else { e.clearCaches with seenEpoch := db.epoch }

/-- The numbers of entries of both caches. -/
def cacheStats (e : Engine) : List (String × Nat) :=
  e.trees.stats.map (fun (name, n) => ("trees." ++ name, n))
    ++ e.pointwise.stats.map (fun (name, n) => ("eligibility." ++ name, n))

/-- The surroundings of a query. -/
def env (e : Engine) (cancelled : Bool) : Env where
  registry := e.registry
  store := e.store
  maxDepth := e.config.maxDepth
  interrupt :=
    if cancelled then some .cancelled
    else if e.config.timeoutMillis = some 0 then some .expired
    else none

/-- Add an operator of a new name. -/
def registerOperator (e : Engine) (o : Operator) : Except Error Engine := do
  return { e with registry := ← e.registry.register o }.clearCaches

/-- Add an operator, in the place of one that has its name. -/
def overrideOperator (e : Engine) (o : Operator) : Engine :=
  { e with registry := e.registry.override o }.clearCaches

end Engine

namespace Action

variable {α : Type}

/-- A step that leaves the session as it is. -/
def ofExcept (r : Except Error α) : Action α :=
  fun s => (r, s)

/-- The engine. -/
def engine : Action Engine :=
  fun s => (.ok s.engine, s)

/-- The database. -/
def database : Action Database :=
  fun s => (.ok s.database, s)

/-- Follow the epoch of the database; gives the epoch. -/
def sync : Action Int :=
  fun s => (.ok s.database.epoch, { s with engine := s.engine.sync s.database })

/-- Give up everything that is kept. -/
def clearCaches : Action Unit :=
  fun s => (.ok (), { s with engine := s.engine.clearCaches })

/-- Run a query against the database, behind the cache of the engine. -/
def query (q : Query α) : Action α :=
  fun s =>
    let (r, trees) := q.runCached s.database.catalog s.engine.trees
    (r, { s with engine := { s.engine with trees } })

/-- Write to the database, unless that fails. -/
def write (f : Database → Except Error (α × Database)) : Action α :=
  fun s =>
    match f s.database with
    | .ok (a, database) => (.ok a, { s with database })
    | .error e => (.error e, s)

end Action

end SeriesLang
