/-! # Paths

Where a node stands in an expression: the operators from the root down to it, with the argument slots
that lead from one to the next, as in `add/1/series`.
-/

namespace SeriesLang

/-- A place in an expression. -/
structure Path where
  text : String
deriving DecidableEq, Repr, Inhabited

namespace Path

/-- The place above the top operator. -/
def root : Path := ⟨""⟩

/-- The operator in an argument slot of the node at this place. -/
def child (path : Path) (slot op : String) : Path :=
  if path.text.isEmpty then ⟨op⟩ else ⟨path.text ++ "/" ++ slot ++ "/" ++ op⟩

end Path

end SeriesLang
