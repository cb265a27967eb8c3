import SeriesLang.Database.Table
import SeriesLang.Decimal.Numeral
import SeriesLang.Error
import SeriesLang.Expr.Parser
import SeriesLang.Json.Basic
import SeriesLang.Query.Basic

/-! # Formula databases

Formulas with the names that they need, group formulas with their bindings, and a few settings. One
of the settings is the epoch, a number that grows with every write to the formulas: who has seen an
epoch knows from it whether the formulas are still the same.
-/

namespace SeriesLang

/-- A stored formula. -/
structure FormulaRow where
  text : String
  metadata : Json
  hash : String
  /-- The names that it needs, directly or through other formulas, sorted; each with the id of the
      formula that had this name when the needs were written, if there was one. -/
  needs : List (String × Option Nat) := []
deriving DecidableEq

/-- A formula over the members of a group. -/
structure GroupRow where
  text : String
  metadata : Json
deriving DecidableEq

/-- A group that is bound to a group formula. -/
structure BindingRow where
  /-- The name of the group formula. -/
  group : String
  binding : Json
  metadata : Json
deriving DecidableEq

/-- The tables of a database. -/
structure Database where
  /-- Sorted by key. -/
  settings : List (String × String) := []
  formulas : Table FormulaRow := {}
  groups : Table GroupRow := {}
  bindings : Table BindingRow := {}
deriving DecidableEq

namespace Database

/-- The value of a setting. -/
def setting? (db : Database) (key : String) : Option String :=
  Sorted.get? key db.settings

/-- Change a setting. -/
def setSetting (db : Database) (key value : String) : Database :=
  { db with settings := Sorted.put key value db.settings }

/-- The key of the epoch. -/
def epochKey : String := "cache_epoch"

/-- The key of the layout. -/
def layoutKey : String := "schema_version"

/-- The layout of the tables that this library writes. -/
def currentLayout : Int := 1

/-- The epoch of the formulas: one as long as no number of at least one is set. -/
def epoch (db : Database) : Int :=
  match (db.setting? epochKey).bind (fun text => (Numeral.int? text).bind Word.ofInt?) with
  | some n => max n 1
  | none => 1

/-- Set the epoch. -/
def setEpoch (db : Database) (epoch : Int) : Database :=
  db.setSetting epochKey (toString epoch)

/-- The number that is set for the epoch after another one. The last integer of 64 bits is followed by
    the first one, for which the epoch starts again at one. -/
def epochAfter (epoch : Int) : Int :=
  Word.wrap (epoch + 1)

/-- Go on to the next epoch. -/
def bumpEpoch (db : Database) : Database :=
  db.setEpoch (epochAfter db.epoch)

/-- The layout of the tables; zero if none is set that reads as an integer of 32 bits. -/
def layout (db : Database) : Int :=
  match (db.setting? layoutKey).bind Numeral.int? with
  | some n => if -2147483648 ≤ n ∧ n ≤ 2147483647 then n else 0
  | none => 0

/-- Set the layout, unless that of the tables is newer. -/
def stamp (db : Database) : Except Error Database :=
  if currentLayout < db.layout then
    let found := db.layout
    let known := currentLayout
    .error (.database s!"database schema version {found} is newer than supported version {known}")
  else if db.layout = currentLayout then .ok db
  else .ok (db.setSetting layoutKey (toString currentLayout))

/-- An empty database. -/
def create : Database :=
  ({} : Database).setSetting layoutKey (toString currentLayout)

/-- Take the contents of a backup, with an epoch after those of both. -/
def restore (db backup : Database) : Database :=
  backup.setEpoch (epochAfter (max db.epoch backup.epoch))

/-- The formulas by name, read from their texts. -/
def catalog (db : Database) : Catalog :=
  fun name =>
    match db.formulas.row? name with
    | some row => (Expr.ofText row.text).map some
    | none => .ok none

end Database

end SeriesLang
