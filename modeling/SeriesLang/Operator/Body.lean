import SeriesLang.Error
import SeriesLang.Expr.Basic
import SeriesLang.Operator.Signature
import SeriesLang.Value
import SeriesLang.Window

/-! # Operator bodies

What an operator computes, as a tree of requests: it may ask for the value of an expression in one
of its argument slots or for a series by name, each in a context of its own, and goes on with the
answer. Whoever runs the tree decides how requests are answered.
-/

namespace SeriesLang

/-- The part of a query that an operator may see and change. -/
structure Context where
  /-- The value dates that are asked for. -/
  window : Window := .all
  /-- The insertion date as of which series are read; the latest state if missing. -/
  revision : Option Instant := none
  /-- The current time. -/
  now : Instant
deriving DecidableEq

/-- A computation that makes requests. -/
inductive Body (α : Type) where
  | done (value : α)
  | fail (error : Error)
  /-- Ask for the value of an expression in an argument slot of the operator. -/
  | eval (context : Context) (e : Expr) (slot : String) (next : Value → Body α)
  /-- Ask for a series by name. -/
  | fetch (context : Context) (name : String) (next : Series → Body α)

namespace Body

variable {α β : Type}

/-- Go on with the result of a computation. -/
def bind : Body α → (α → Body β) → Body β
  | .done a, f => f a
  | .fail e, _ => .fail e
  | .eval context e slot next, f => .eval context e slot (fun v => (next v).bind f)
  | .fetch context name next, f => .fetch context name (fun s => (next s).bind f)

instance : Monad Body where
  pure := .done
  bind := .bind

/-- A computation that makes no request. -/
def ofExcept : Except Error α → Body α
  | .ok a => .done a
  | .error e => .fail e

/-- Ask for the value of an expression in an argument slot. -/
def value (context : Context) (e : Expr) (slot : String) : Body Value :=
  .eval context e slot .done

/-- Ask for a series by name. -/
def series (context : Context) (name : String) : Body Series :=
  .fetch context name .done

end Body

/-- The bound arguments that an operator receives. -/
structure Arguments where
  op : String
  path : Path
  positional : List Value
  keywords : List (String × Value)
  /-- Present if the operator declares that it looks at the context. -/
  context : Option Context
deriving DecidableEq

namespace Arguments

/-- An error of the operator itself. -/
def failure (args : Arguments) (message : String) : Error :=
  .evaluation args.op args.path message

/-- The context of the query. -/
def requireContext (args : Arguments) : Except Error Context :=
  match args.context with
  | some c => .ok c
  | none => .error (args.failure "operator did not declare that it wants the query context")

/-- A positional argument; nil if there is none. -/
def positionalAt (args : Arguments) (i : Nat) : Value :=
  args.positional.getD i .nil

/-- A positional argument as a series. -/
def seriesAt (args : Arguments) (i : Nat) : Except Error Series :=
  match args.positional[i]? with
  | some (.series s) => .ok s
  | some v =>
    let type := v.typeName
    .error (args.failure s!"argument {i} is a {type}, not a series")
  | none => .error (args.failure s!"missing argument {i}")

/-- All positional arguments from an index on as series. -/
def seriesFrom (args : Arguments) (i : Nat) : Except Error (List Series) :=
  (List.range' i (args.positional.length - i)).mapM args.seriesAt

/-- A positional argument as a number. -/
def numberAt (args : Arguments) (i : Nat) : Except Error Float :=
  match (args.positionalAt i).number? with
  | some v => .ok v
  | none => .error (args.failure s!"argument {i} is not a number")

/-- A positional argument as a string. -/
def textAt (args : Arguments) (i : Nat) : Except Error String :=
  match args.positionalAt i with
  | .str s => .ok s
  | v =>
    let type := v.typeName
    .error (args.failure s!"argument {i} is a {type}, not a string")

/-- A positional argument as a timestamp. -/
def instantAt (args : Arguments) (i : Nat) : Except Error Instant :=
  match args.positionalAt i with
  | .timestamp t => .ok t
  | v =>
    let type := v.typeName
    .error (args.failure s!"argument {i} is a {type}, not a timestamp")

/-- The value of a keyword; nil if there is none. -/
def keyword (args : Arguments) (name : String) : Value :=
  (Sorted.get? name args.keywords).getD .nil

/-- A keyword as a number. -/
def numberKeyword? (args : Arguments) (name : String) : Option Float :=
  (args.keyword name).number?

/-- A keyword as an integer. -/
def intKeyword? (args : Arguments) (name : String) : Option Int :=
  match args.keyword name with
  | .int n => some n
  | _ => none

/-- A keyword as a truth value. -/
def boolKeyword (args : Arguments) (name : String) (default : Bool) : Bool :=
  match args.keyword name with
  | .bool b => b
  | _ => default

/-- A keyword as a string. -/
def textKeyword? (args : Arguments) (name : String) : Option String :=
  match args.keyword name with
  | .str s => some s
  | _ => none

/-- A keyword as a timestamp. -/
def instantKeyword? (args : Arguments) (name : String) : Option Instant :=
  match args.keyword name with
  | .timestamp t => some t
  | _ => none

/-- Is a keyword set to anything but nil and false? -/
def isSet (args : Arguments) (name : String) : Bool :=
  match args.keyword name with
  | .nil | .bool false => false
  | _ => true

/-- Fail if two keywords are both set. -/
def exclusive (args : Arguments) (first second : String) : Except Error Unit :=
  if args.isSet first && args.isSet second then
    .error (.exclusiveKeywords args.op args.path first second)
  else .ok ()

end Arguments

end SeriesLang
