import SeriesLang.Expr.Basic
import SeriesLang.Json.Record

/-! # Aliases

Tables of weighted sums and of priorities, row by row, and the formulas that say the same. The rows
of one alias make one formula; aliases come in the order in which they are first seen.
-/

namespace SeriesLang

/-- A row of a sum: the alias adds `coefficient · series`. -/
structure ArithmeticRow where
  name : String
  series : String
  coefficient : Float
  /-- How the series is filled; an empty text is none. -/
  fill : Option String
deriving DecidableEq

/-- A row of a priority list: the series of the lowest priority that has a value wins. -/
structure PriorityRow where
  name : String
  series : String
  priority : Int
  coefficient : Float
  /-- How many of the last points are dropped; zero is none. -/
  prune : Option Int
deriving DecidableEq

namespace Alias

/-- An expression times a coefficient, unless that is one. -/
def scaled (coefficient : Float) (e : Expr) : Expr :=
  if coefficient == 1 then e else .call ⟨"*", [.literal (.float coefficient), e], []⟩

/-- An operator over components, unless there is just one. -/
def combined? (op : String) : List Expr → Option Expr
  | [] => none
  | [e] => some e
  | components => some (.call ⟨op, components, []⟩)

/-- The rows of each name, in order; names in the order in which they are first seen. -/
def groups {α : Type} (name : α → String) (rows : List α) : List (String × List α) :=
  (rows.map name).eraseDups.map (fun key => (key, rows.filter (fun row => name row = key)))

/-- The formula of each group, from the expression of each row. -/
def formulas {α : Type} (op : String) (component : α → Expr) (groups : List (String × List α)) :
    List (String × Expr) :=
  groups.filterMap (fun (name, rows) => (combined? op (rows.map component)).map (name, ·))

end Alias

namespace ArithmeticRow

/-- The component of a row. -/
def component (row : ArithmeticRow) : Expr :=
  let kwargs := match row.fill with
    | some fill => if fill.isEmpty then [] else [("fill", Expr.literal (.str fill))]
    | none => []
  Alias.scaled row.coefficient (.call ⟨"series", [.literal (.str row.series)], kwargs⟩)

/-- The formula of each alias: the sum of its rows. -/
def formulas (rows : List ArithmeticRow) : List (String × Expr) :=
  Alias.formulas "add" component (Alias.groups ArithmeticRow.name rows)

/-- Read a row from its JSON form. -/
def ofJson? (json : Json) : Option ArithmeticRow := do
  match ← json.record? ["alias", "serie", "coefficient", "fillopt"] with
  | [name, series, coefficient, fill] =>
    return ⟨← Json.required? Json.toText? name, ← Json.required? Json.toText? series,
      ← Json.required? Json.toNumber? coefficient, ← Json.optional? Json.toText? fill⟩
  | _ => none

end ArithmeticRow

namespace PriorityRow

/-- The component of a row. -/
def component (row : PriorityRow) : Expr :=
  let kwargs := match row.prune with
    | some n => if n = 0 then [] else [("prune", Expr.literal (.int n))]
    | none => []
  Alias.scaled row.coefficient (.call ⟨"series", [.literal (.str row.series)], kwargs⟩)

/-- Rows in ascending priority; rows of one priority stay in order. -/
def ranked (rows : List PriorityRow) : List PriorityRow :=
  rows.mergeSort (fun a b => a.priority ≤ b.priority)

/-- The formula of each alias: its rows in ascending priority. -/
def formulas (rows : List PriorityRow) : List (String × Expr) :=
  Alias.formulas "priority" component
    ((Alias.groups PriorityRow.name rows).map (fun (name, rows) => (name, ranked rows)))

/-- Read a row from its JSON form. -/
def ofJson? (json : Json) : Option PriorityRow := do
  match ← json.record? ["alias", "serie", "priority", "coefficient", "prune"] with
  | [name, series, priority, coefficient, prune] =>
    return ⟨← Json.required? Json.toText? name, ← Json.required? Json.toText? series,
      ← Json.required? Json.toInt? priority, ← Json.required? Json.toNumber? coefficient,
      ← Json.optional? Json.toInt? prune⟩
  | _ => none

end PriorityRow

end SeriesLang
