import SeriesLang.Operator.Body

/-! # Operators

Everything that is known about an operator: its parameters and what it computes, and what analyses
need to know of it without running it.
-/

namespace SeriesLang

/-- How an operator computes its value. -/
inductive Implementation where
  /-- From its evaluated and bound arguments. -/
  | values (run : Arguments → Body Value)
  /-- From its application as it stands, evaluating what it wants. -/
  | tree (run : Call → Context → Path → Body Value)

/-- What an operator adds to the table of components of a formula. -/
inductive EditorStep where
  /-- The current row stands for a series. -/
  | series (name keywords : String)
  /-- The current row has a coefficient. -/
  | coefficient (text : String)
  /-- An argument belongs to the current row. -/
  | walk (index : Nat)
  /-- An argument has a row of its own. -/
  | row (index : Nat)
deriving DecidableEq, Repr

/-- An operator. -/
structure Operator where
  name : String
  signature : Signature := {}
  implementation : Implementation
  /-- Does the operator look at the context of the query? -/
  wantsContext : Bool := false
  /-- The names of the series that an application reads, where they are not found by looking at its
      arguments. -/
  finder : Option (Call → List String) := none
  /-- The revision dates that an application has of its own. -/
  insertionDates : Option (Call → Context → Path → Body (List Instant)) := none
  /-- What an application adds to the table of components. -/
  editor : Option (Call → List EditorStep) := none
  /-- Does the operator look at one instant at a time? -/
  pushdown : Bool := false
  doc : String := ""

namespace Operator

/-- Does the operator receive its application unevaluated? -/
def isTree (o : Operator) : Bool :=
  match o.implementation with
  | .tree _ => true
  | .values _ => false

/-- An operator on evaluated arguments that makes no request. -/
def ofValues (name : String) (signature : Signature) (run : Arguments → Except Error Value) : Operator :=
  { name, signature, implementation := .values (fun args => .ofExcept (run args)) }

/-- An operator on its unevaluated application. -/
def ofTree (name : String) (signature : Signature) (run : Call → Context → Path → Body Value) :
    Operator :=
  { name, signature, implementation := .tree run, wantsContext := true }

end Operator

end SeriesLang
