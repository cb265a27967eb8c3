import SeriesLang.Sorted

/-! # Tables

Rows under unique names, each with an id. Ids count up from one, and none is given twice. Writing a row
over another keeps the id of that one, and uses up the next id all the same.
-/

namespace SeriesLang

/-- A row with its id. -/
structure Entry (ρ : Type) where
  id : Nat
  row : ρ
deriving DecidableEq

/-- A table of rows by name. -/
structure Table (ρ : Type) where
  /-- Sorted by name. -/
  entries : List (String × Entry ρ) := []
  /-- The last id that is used up. -/
  lastId : Nat := 0
deriving DecidableEq

namespace Table

variable {ρ : Type}

/-- The row of a name with its id. -/
def find? (t : Table ρ) (name : String) : Option (Entry ρ) :=
  Sorted.get? name t.entries

/-- The id of a name. -/
def id? (t : Table ρ) (name : String) : Option Nat :=
  (t.find? name).map Entry.id

/-- The row of a name. -/
def row? (t : Table ρ) (name : String) : Option ρ :=
  (t.find? name).map Entry.row

/-- Is there a row of this name? -/
def contains (t : Table ρ) (name : String) : Bool :=
  (t.find? name).isSome

/-- The id that a row of this name has once it is written. -/
def idFor (t : Table ρ) (name : String) : Nat :=
  (t.id? name).getD (t.lastId + 1)

/-- Write a row, over the one of its name if there is one. -/
def write (t : Table ρ) (name : String) (row : ρ) : Table ρ :=
  ⟨Sorted.put name ⟨t.idFor name, row⟩ t.entries, t.lastId + 1⟩

/-- Change every row. -/
def mapRows (t : Table ρ) (f : String → ρ → ρ) : Table ρ :=
  { t with entries := t.entries.map (fun (name, e) => (name, { e with row := f name e.row })) }

/-- Change the row of a name, if there is one. -/
def modify (t : Table ρ) (name : String) (f : ρ → ρ) : Table ρ :=
  t.mapRows (fun other row => if other = name then f row else row)

/-- Remove the row of a name. -/
def erase (t : Table ρ) (name : String) : Table ρ :=
  { t with entries := Sorted.erase name t.entries }

/-- Keep the rows that pass a test. -/
def retain (t : Table ρ) (keep : ρ → Bool) : Table ρ :=
  { t with entries := t.entries.filter (fun p => keep p.2.row) }

/-- Give a row another name; its id stays. -/
def rename (t : Table ρ) (old new : String) : Table ρ :=
  match t.find? old with
  | some e => { t with entries := Sorted.put new e (Sorted.erase old t.entries) }
  | none => t

/-- The names of the rows, in order. -/
def names (t : Table ρ) : List String :=
  t.entries.map Prod.fst

end Table

end SeriesLang
