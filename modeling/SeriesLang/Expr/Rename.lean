import SeriesLang.Expr.Basic

/-! # Renaming series

Replace a name where the expression reads a series by it, and nowhere else.
-/

namespace SeriesLang.Expr

mutual

/-- Make every `(series old …)` read `new` instead; its keywords stay. -/
def renameSeries (old new : String) : Expr → Expr
  | .literal l => .literal l
  | .symbol name => .symbol name
  | .call ⟨op, args, kwargs⟩ =>
    .call ⟨op,
      if op = "series" then renameFirst old new args else renameArgs old new args,
      renameKwargs old new kwargs⟩

/-- Rename in the arguments of a `series` application, whose first one is its name. -/
def renameFirst (old new : String) : List Expr → List Expr
  | [] => []
  | e :: rest =>
    (if e.text? = some old then .literal (.str new) else renameSeries old new e)
      :: renameArgs old new rest

/-- Rename in every argument. -/
def renameArgs (old new : String) : List Expr → List Expr
  | [] => []
  | e :: rest => renameSeries old new e :: renameArgs old new rest

/-- Rename in every keyword value. -/
def renameKwargs (old new : String) : List (String × Expr) → List (String × Expr)
  | [] => []
  | (name, e) :: rest => (name, renameSeries old new e) :: renameKwargs old new rest

end

/-- Does the expression read a series by this name? -/
def readsSeries (name : String) (e : Expr) : Bool :=
  e.seriesNames.contains name

end SeriesLang.Expr
