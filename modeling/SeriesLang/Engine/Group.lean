import SeriesLang.Database.Group
import SeriesLang.Engine.Basic

/-! # Registering groups

A group formula is registered if its text is an expression.
-/

namespace SeriesLang.Engine

/-- Register a group formula; gives its id. -/
def registerGroup (name text : String) (metadata : Option Json) (update : Bool) : Action Nat := do
  let _ ← Action.ofExcept (Expr.ofText text)
  Action.write (·.writeGroup name ⟨text, metadata.getD (.obj [])⟩ update)

/-- Bind a group to a group formula; gives the id of the binding. -/
def registerBinding (name group : String) (binding : Json) (metadata : Option Json) (update : Bool) :
    Action Nat :=
  Action.write (·.writeBinding name ⟨group, binding, metadata.getD (.obj [])⟩ update)

end SeriesLang.Engine
