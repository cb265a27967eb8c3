import SeriesLang.Expr.Printer
import SeriesLang.Json.Basic
import SeriesLang.Operator.Registry
import SeriesLang.Query.Basic
import SeriesLang.Store.Basic

/-! # Components

The table of components of a formula: a row for the formula and one for each part that an operator
says has a row of its own. A row is finished when everything below it is, so the formula comes last.
-/

namespace SeriesLang

/-- What a row of the table stands for. -/
inductive RowKind where
  /-- A part that is no series. -/
  | part
  | primary
  | unknown
  /-- A formula with its top operator, if it has one. -/
  | formula (top : Option String)
deriving DecidableEq, Repr

/-- A row of the table of components. -/
structure ComponentRow where
  name : String := ""
  kind : RowKind := .part
  coefficient : String := "x 1"
  keywords : String := "-"
  expression : Expr
deriving DecidableEq

namespace RowKind

/-- The kind of a formula. -/
def ofFormula (e : Expr) : RowKind :=
  .formula (e.call?.map Application.op)

/-- The kind of a series by its name. -/
def lookup (store : Store) (name : String) : Query RowKind := do
  match ← Query.formula name with
  | some e => return ofFormula e
  | none => return if store.contains name then .primary else .unknown

/-- An operator as the table shows it. -/
def operatorText (op : String) : String :=
  if op = "*" then "x" else op

/-- The text of a kind. -/
def text : RowKind → String
  | .part => ""
  | .primary => "primary"
  | .unknown => "unknown"
  | .formula none => "formula"
  | .formula (some op) => "formula: " ++ operatorText op

end RowKind

namespace ComponentRow

/-- The JSON form of a row. -/
def toJson (row : ComponentRow) : Json :=
  .ofFields [("name", .str row.name), ("kind", .str row.kind.text), ("coef", .str row.coefficient),
    ("keywords", .str row.keywords), ("expression", .str row.expression.canonical)]

/-- Fills the current row, and finishes rows on the way. -/
abbrev Walk := ComponentRow → Query (ComponentRow × List ComponentRow)

/-- A walk that does nothing. -/
def Walk.skip : Walk :=
  fun row => .done (row, [])

/-- What an operator adds, given the walks of its arguments. -/
def runStep (store : Store) (args : List Expr) (walks : List Walk) : EditorStep → Walk
  | .series name keywords => fun row => do
    return ({ row with name, keywords, kind := ← RowKind.lookup store name }, [])
  | .coefficient text => fun row => .done ({ row with coefficient := text }, [])
  | .walk index => walks.getD index .skip
  | .row index => fun row => do
    match args[index]?, walks[index]? with
    | some e, some walk =>
      let (closed, below) ← walk { expression := e }
      return (row, below ++ [closed])
    | _, _ => return (row, [])

/-- What an operator adds in all, step by step. -/
def runSteps (store : Store) (args : List Expr) (walks : List Walk) : List EditorStep → Walk
  | [] => .skip
  | step :: rest => fun row => do
    let (row, finished) ← runStep store args walks step row
    let (row, more) ← runSteps store args walks rest row
    return (row, finished ++ more)

mutual

/-- Walk through an expression as far as its operators say. -/
def walk (r : Registry) (store : Store) : Expr → Walk
  | .literal _ => .skip
  | .symbol _ => .skip
  | .call ⟨op, args, kwargs⟩ =>
    match (r.get? op).bind Operator.editor with
    | some steps => runSteps store args (walks r store args) (steps ⟨op, args, kwargs⟩)
    | none => .skip

/-- The walks through a list of arguments. -/
def walks (r : Registry) (store : Store) : List Expr → List Walk
  | [] => []
  | e :: rest => walk r store e :: walks r store rest

end

/-- The table of components of a formula. -/
def table (r : Registry) (store : Store) (name : String) (e : Expr) : Query (List ComponentRow) := do
  let (row, finished) ← walk r store e { name, kind := .ofFormula e, expression := e }
  return finished ++ [row]

end ComponentRow

end SeriesLang
