import SeriesLang.Database.Basic
import SeriesLang.Json.Kept

/-! # Writing groups

Group formulas and the groups that are bound to them. A binding goes with its group formula when that is
renamed or deleted.
-/

namespace SeriesLang.Database

/-- Write a group formula; one that is stored has to be meant. -/
def writeGroup (db : Database) (name : String) (row : GroupRow) (update : Bool) :
    Except Error (Nat × Database) :=
  if db.groups.contains name && !update then .error (.groupExists name)
  else
    let row := { row with metadata := row.metadata.kept }
    .ok (db.groups.idFor name, { db with groups := db.groups.write name row })

/-- Delete a group formula with its bindings; was it stored? -/
def deleteGroup (db : Database) (name : String) : Bool × Database :=
  if db.groups.contains name then
    (true, { db with
      groups := db.groups.erase name
      bindings := db.bindings.retain (fun b => b.group ≠ name) })
  else (false, db)

/-- Give a group formula another name, which its bindings follow. -/
def renameGroup (db : Database) (old new : String) : Except Error Database :=
  if !db.groups.contains old then .error (.unknownGroup old)
  else if db.groups.contains new then .error (.groupExists new)
  else .ok { db with
    groups := db.groups.rename old new
    bindings := db.bindings.mapRows (fun _ b => if b.group = old then { b with group := new } else b) }

/-- Bind a group to a group formula; a binding that is stored has to be meant. -/
def writeBinding (db : Database) (name : String) (row : BindingRow) (update : Bool) :
    Except Error (Nat × Database) :=
  if !db.groups.contains row.group then .error (.unknownGroup row.group)
  else if db.bindings.contains name && !update then .error (.groupExists name)
  else
    let row := { row with binding := row.binding.kept, metadata := row.metadata.kept }
    .ok (db.bindings.idFor name, { db with bindings := db.bindings.write name row })

/-- Delete a binding; was it stored? -/
def deleteBinding (db : Database) (name : String) : Bool × Database :=
  (db.bindings.contains name, { db with bindings := db.bindings.erase name })

end SeriesLang.Database
