import SeriesLang.Operator.Basic

/-! # Registries

The operators that are known, by name and in the order of their registration, and the check that every
application in an expression fits its operator.
-/

namespace SeriesLang

/-- A table of operators, each name once. -/
structure Registry where
  operators : List Operator := []

namespace Registry

/-- The operator of a name. -/
def get? (r : Registry) (name : String) : Option Operator :=
  r.operators.find? (fun o => o.name == name)

/-- Is there an operator of this name? -/
def contains (r : Registry) (name : String) : Bool :=
  (r.get? name).isSome

/-- The operator of a name at a place in an expression. -/
def find (r : Registry) (name : String) (path : Path) : Except Error Operator :=
  match r.get? name with
  | some o => .ok o
  | none => .error (.unknownOperator name path)

/-- Add an operator, in the place of one that has its name. -/
def override (r : Registry) (o : Operator) : Registry :=
  if r.contains o.name then
    ⟨r.operators.map (fun other => if other.name == o.name then o else other)⟩
  else ⟨r.operators ++ [o]⟩

/-- Add an operator of a new name. -/
def register (r : Registry) (o : Operator) : Except Error Registry :=
  if r.contains o.name then .error (.duplicateOperator o.name) else .ok ⟨r.operators ++ [o]⟩

/-- The registry of a list of operators; of several of one name the last counts. -/
def ofList (operators : List Operator) : Registry :=
  operators.foldl override {}

/-- The names of the operators. -/
def names (r : Registry) : List String :=
  r.operators.map Operator.name

mutual

/-- Check every application in an expression that stands in an argument slot: its operator is known
    and takes arguments of that shape. -/
def checkAt (r : Registry) (parent : Path) (slot : String) : Expr → Except Error Unit
  | .literal _ => .ok ()
  | .symbol _ => .ok ()
  | .call ⟨op, args, kwargs⟩ => do
    let path := parent.child slot op
    let o ← r.find op path
    o.signature.checkCall ⟨op, args, kwargs⟩ path
    checkArgs r path 0 args
    checkKwargs r path kwargs

/-- Check positional arguments, counted from an index. -/
def checkArgs (r : Registry) (path : Path) (index : Nat) : List Expr → Except Error Unit
  | [] => .ok ()
  | e :: rest => do
    checkAt r path (toString index) e
    checkArgs r path (index + 1) rest

/-- Check keyword values. -/
def checkKwargs (r : Registry) (path : Path) : List (String × Expr) → Except Error Unit
  | [] => .ok ()
  | (name, e) :: rest => do
    checkAt r path name e
    checkKwargs r path rest

end

/-- Check every application in an expression. -/
def checkTree (r : Registry) (e : Expr) : Except Error Unit :=
  r.checkAt .root "" e

end Registry

end SeriesLang
