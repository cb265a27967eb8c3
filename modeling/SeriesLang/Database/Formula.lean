import SeriesLang.Database.Basic
import SeriesLang.Json.Kept

/-! # Writing formulas

A formula is written together with the names that it needs. Of a need it is kept which formula had the
name at that time, so that a formula takes the needs that lead to it along when it is deleted.
-/

namespace SeriesLang

/-- A formula to be written. -/
structure FormulaWrite where
  name : String
  text : String
  hash : String
  /-- Missing metadata leaves what is stored. -/
  metadata : Option Json := none
  needs : List String
deriving DecidableEq

namespace Database

/-- Needs as they are stored: sorted, with the ids of the formulas among them. -/
def needsRow (db : Database) (needs : List String) : List (String × Option Nat) :=
  Sorted.putAll (needs.map (fun need => (need, db.formulas.id? need))) []

/-- Replace the needs of a stored formula. -/
def setNeeds (db : Database) (name : String) (needs : List String) : Database :=
  { db with
    formulas := db.formulas.modify name (fun row => { row with needs := db.needsRow needs }) }

/-- Replace the needs of stored formulas, one after the other. -/
def setNeedsAll (db : Database) (needs : List (String × List String)) : Database :=
  needs.foldl (fun db (name, needs) => db.setNeeds name needs) db

/-- The metadata that a formula has once it is written. -/
def metadataFor (db : Database) (w : FormulaWrite) : Json :=
  match w.metadata with
  | some json => json.kept
  | none => ((db.formulas.row? w.name).map FormulaRow.metadata).getD (.obj [])

/-- Put a formula and its needs into the tables. -/
def putFormula (db : Database) (w : FormulaWrite) : Database :=
  setNeeds
    { db with formulas := db.formulas.write w.name ⟨w.text, db.metadataFor w, w.hash, []⟩ }
    w.name w.needs

/-- Fail if the epoch is another one than expected. -/
def checkEpoch (db : Database) : Option Int → Except Error Unit
  | some expected =>
    if expected = db.epoch then .ok () else .error (.concurrentWrite expected db.epoch)
  | none => .ok ()

/-- Write a formula, and the needs of others that changed with it. A stored formula of the name has to
    be meant, and the epoch has to be still the one for which the needs were found. -/
def writeFormula (db : Database) (w : FormulaWrite) (update : Bool)
    (refreshed : List (String × List String)) (resolvedAt : Option Int) :
    Except Error (Nat × Database) := do
  db.checkEpoch resolvedAt
  if db.formulas.contains w.name && !update then .error (.formulaExists w.name)
  else .ok (db.formulas.idFor w.name, ((db.putFormula w).setNeedsAll refreshed).bumpEpoch)

/-- Replace a stored formula; its id stays. -/
def replaceFormula (db : Database) (w : FormulaWrite) : Database :=
  setNeeds
    { db with
      formulas := db.formulas.modify w.name (fun row =>
        { row with text := w.text, hash := w.hash, metadata := (w.metadata.map Json.kept).getD row.metadata }) }
    w.name w.needs

/-- Replace stored formulas; names that are not stored are passed over. Gives how many there were. -/
def replaceFormulas (db : Database) (writes : List FormulaWrite) : Nat × Database :=
  let known := writes.filter (fun w => db.formulas.contains w.name)
  (known.length, (known.foldl replaceFormula db).bumpEpoch)

/-- Delete a formula, with the needs of others that lead to it. -/
def deleteFormula (db : Database) (name : String) : Bool × Database :=
  match db.formulas.id? name with
  | none => (false, db)
  | some id =>
    let formulas := (db.formulas.erase name).mapRows (fun _ row =>
      { row with needs := row.needs.filter (fun need => need.2 ≠ some id) })
    (true, { db with formulas }.bumpEpoch)

/-- Replace the metadata of a formula; was it stored? -/
def setMetadata (db : Database) (name : String) (metadata : Json) : Bool × Database :=
  (db.formulas.contains name,
    { db with
      formulas := db.formulas.modify name ({ · with metadata := metadata.kept }) }.bumpEpoch)

/-- The names that a formula needs, in order. -/
def dependencies (db : Database) (name : String) : List String :=
  ((db.formulas.row? name).map (fun row => row.needs.map Prod.fst)).getD []

/-- The formulas that need a name, in order. -/
def dependents (db : Database) (name : String) : List String :=
  (db.formulas.entries.filter (fun (_, e) => Sorted.contains name e.row.needs)).map Prod.fst

end Database

end SeriesLang
