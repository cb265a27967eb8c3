import SeriesLang.Decimal.Numeral
import SeriesLang.Series.Basic
import SeriesLang.Text.Blank
import SeriesLang.Text.Split

/-! # Filling missing cells

How a fill policy is written, and what it does to a column of cells in which a missing value is
`none`.
-/

namespace SeriesLang

namespace FillMethod

/-- The method of a name. -/
def ofName? : String → Option FillMethod
  | "ffill" | "pad" => some .forward
  | "bfill" | "backfill" => some .backward
  | _ => none

/-- The name of a method. -/
def name : FillMethod → String
  | .forward => "ffill"
  | .backward => "bfill"

end FillMethod

namespace FillPolicy

/-- Read a policy: a number, or the names of methods between commas. -/
def ofText? (text : String) : Option FillPolicy :=
  match Numeral.float? (Text.trim text) with
  | some v => some (.value v)
  | none =>
    ((Text.splitAt ',' text.toList).mapM (fun part =>
      FillMethod.ofName? (String.ofList (Text.trimBlanks part)))).map .methods

/-- Does the policy look at nothing but the cell that it fills? -/
def isPointwise : FillPolicy → Bool
  | .value _ => true
  | .methods _ => false

end FillPolicy

namespace Fill

/-- One more cell of a column: a missing one is replaced by a value while the budget lasts, and no
    budget is no limit. The cells before it come last one first. -/
def constantStep (v : Float) :
    Option Nat × List (Option Float) → Option Float → Option Nat × List (Option Float)
  | (budget, cells), some x => (budget, some x :: cells)
  | (none, cells), none => (none, some v :: cells)
  | (some 0, cells), none => (some 0, none :: cells)
  | (some (n + 1), cells), none => (some n, some v :: cells)

/-- Replace missing cells by a value, at most so many. -/
def constant (v : Float) (limit : Option Nat) (column : List (Option Float)) : List (Option Float) :=
  (column.foldl (constantStep v) (limit, [])).2.reverse

/-- What a pass over a column carries along. -/
structure Pass where
  /-- The last value before the next cell. -/
  last : Option Float := none
  /-- The number of missing cells since then. -/
  run : Nat := 0
  /-- The cells so far, last one first. -/
  cells : List (Option Float) := []

/-- One more cell of a column: a missing one takes the last value before it, up to the limit in a
    row. -/
def Pass.step (limit : Option Nat) (p : Pass) : Option Float → Pass
  | some v => ⟨some v, 0, some v :: p.cells⟩
  | none => ⟨p.last, p.run + 1, (if limit.all (p.run < ·) then p.last else none) :: p.cells⟩

/-- Replace missing cells by the last value before them, up to the limit in a row. -/
def propagate (limit : Option Nat) (column : List (Option Float)) : List (Option Float) :=
  (column.foldl (Pass.step limit) {}).cells.reverse

/-- Replace missing cells in one direction. -/
def byMethod (limit : Option Nat) (column : List (Option Float)) : FillMethod → List (Option Float)
  | .forward => propagate limit column
  | .backward => (propagate limit column.reverse).reverse

/-- Fill a column as the options of its series say. -/
def column (options : SeriesOptions) (cells : List (Option Float)) : List (Option Float) :=
  match options.fill with
  | none => cells
  | some (.value v) => constant v options.limit cells
  | some (.methods methods) => methods.foldl (byMethod options.limit) cells

end Fill

end SeriesLang
