import SeriesLang.Database.Basic
import SeriesLang.Database.Location

/-! # Database files

Where a database is kept, and what it answers before its tables are made.
-/

namespace SeriesLang

/-- A place for a database, with its tables if they were made. -/
structure DatabaseFile where
  path : String
  /-- Can there be a file at the place? -/
  opens : Bool := true
  /-- Can the file be written? -/
  writes : Bool := true
  tables : Option Database := none

namespace DatabaseFile

/-- A new place for a database, in a current directory that is empty. The directories on the way to it
    are made; the place itself can be no file if it is one of them. -/
def create (home current path : String) : Except Error DatabaseFile :=
  let path := Location.resolve home current path
  if Location.isDirectory (Location.directory path) then
    let names := Location.names path
    let stations := Location.stations names
    let target := Location.target names
    let directories := Location.stations (Location.names current) ++ stations.dropLast
    .ok {
      path
      opens := names.all Location.isFileName && Location.isReachable stations target &&
        !directories.contains target
      writes := Location.hasJournal target }
  else .error .badDirectory

/-- Fail if there can be no file. -/
def requireFile (file : DatabaseFile) : Except Error Unit :=
  if file.opens then .ok () else .error .notAFile

/-- The tables, which have to be there. -/
def read (file : DatabaseFile) : Except Error Database := do
  file.requireFile
  match file.tables with
  | some db => return db
  | none => throw .missingTable

/-- The layout of the tables; zero if there are none. -/
def layout (file : DatabaseFile) : Except Error Int := do
  file.requireFile
  return (file.tables.map Database.layout).getD 0

/-- Make the tables if they are missing, which writes the file. -/
def make (file : DatabaseFile) : Except Error DatabaseFile := do
  file.requireFile
  if file.writes then return { file with tables := some (← (file.tables.getD {}).stamp) }
  else throw .noJournal

end DatabaseFile

end SeriesLang
