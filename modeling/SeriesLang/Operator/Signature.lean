import SeriesLang.Error
import SeriesLang.Expr.Basic
import SeriesLang.Series.Fill
import SeriesLang.Time.Pattern
import SeriesLang.Value

/-! # Signatures

What arguments an operator takes, and how given arguments are bound to its parameters: positional
ones in order, then a tail of any number of arguments, and keywords by name.
-/

namespace SeriesLang

/-- The values that a parameter accepts. -/
inductive ParamType where
  | any
  | bool
  | int
  | number
  | str
  /-- A timestamp, or a string that reads as one. -/
  | timestamp
  | series
  | numberOrSeries
  /-- A number, or a string that reads as a fill policy. -/
  | fill
deriving DecidableEq, Repr

namespace ParamType

/-- The name of a type in messages. -/
def describe : ParamType → String
  | .any => "any value"
  | .bool => "bool"
  | .int => "int"
  | .number => "number"
  | .str => "string"
  | .timestamp => "timestamp"
  | .series => "series"
  | .numberOrSeries => "number or series"
  | .fill => "fill policy"

/-- The value as a value of the type: itself, or the timestamp that a string reads as. -/
def coerce? : ParamType → Value → Option Value
  | .any, v => some v
  | .bool, .bool b => some (.bool b)
  | .int, .int n => some (.int n)
  | .number, .int n => some (.int n)
  | .number, .float v => some (.float v)
  | .str, .str s => some (.str s)
  | .timestamp, .timestamp t => some (.timestamp t)
  | .timestamp, .str s => (Instant.ofText? s).map .timestamp
  | .series, .series s => some (.series s)
  | .numberOrSeries, .int n => some (.int n)
  | .numberOrSeries, .float v => some (.float v)
  | .numberOrSeries, .series s => some (.series s)
  | .fill, .int n => some (.int n)
  | .fill, .float v => some (.float v)
  | .fill, .str s => if (FillPolicy.ofText? s).isSome then some (.str s) else none
  | _, _ => none

end ParamType

/-- A parameter. -/
structure Param where
  name : String
  type : ParamType
  /-- What it is when it is not given; a parameter without a default is required. -/
  default : Option Value := none
deriving DecidableEq

namespace Param

/-- A parameter that may be left out, and is nil then. -/
def optional (name : String) (type : ParamType) : Param :=
  ⟨name, type, some .nil⟩

/-- What the parameter is when it is not given. -/
def missing (p : Param) : Value :=
  p.default.getD .nil

end Param

/-- The parameters of an operator. -/
structure Signature where
  positional : List Param := []
  /-- The parameter of every argument behind the positional ones, if there may be any. -/
  rest : Option Param := none
  /-- The least number of arguments in that tail. -/
  minRest : Nat := 0
  keywords : List Param := []
deriving DecidableEq

/-- Arguments bound to parameters. -/
structure Bound where
  positional : List Value
  /-- Sorted by name. -/
  keywords : List (String × Value)
deriving DecidableEq

namespace Signature

/-- The least number of positional arguments: the leading parameters without default and, if those
    are all, the least tail. -/
def requiredCount (s : Signature) : Nat :=
  let leading := (s.positional.takeWhile (fun p => p.default.isNone)).length
  if leading = s.positional.length then leading + s.minRest else leading

/-- Check the number of positional arguments and the names of the keywords. -/
def checkShape (s : Signature) (op : String) (path : Path) (given : Nat) (names : List String) :
    Except Error Unit :=
  let required := s.requiredCount
  let most := s.positional.length
  if given < required then
    .error (.arityMismatch op path
      s!"expected at least {required} positional arguments, got {given}")
  else if s.rest.isNone && most < given then
    .error (.arityMismatch op path s!"expected at most {most} positional arguments, got {given}")
  else match names.find? (fun name => !s.keywords.any (fun p => p.name == name)) with
    | some name => .error (.arityMismatch op path s!"unknown keyword `#:{name}`")
    | none => .ok ()

/-- Check the shape of an application without evaluating anything. -/
def checkCall (s : Signature) (call : Call) (path : Path) : Except Error Unit :=
  s.checkShape call.op path call.args.length (call.kwargs.map Prod.fst)

/-- Check a value against its parameter; nil passes for one that has a default. -/
def checkValue (op : String) (path : Path) (p : Param) (v : Value) : Except Error Value :=
  if v.isNil && p.default.isSome then .ok v
  else match p.type.coerce? v with
    | some v => .ok v
    | none => .error (.typeMismatch op path p.name p.type.describe v.typeName)

/-- Bind positional arguments: one to each parameter in order, a missing one to its default, and what
    is left to the tail. -/
def bindPositional (op : String) (path : Path) (rest : Option Param) :
    List Param → List Value → Except Error (List Value)
  | [], values =>
    match rest with
    | some p => values.mapM (checkValue op path p)
    | none => .ok []
  | p :: ps, [] => do return p.missing :: (← bindPositional op path rest ps [])
  | p :: ps, v :: values => do
    let v ← checkValue op path p v
    return v :: (← bindPositional op path rest ps values)

/-- Bind keywords, each to the parameter of its name; a missing one to its default. -/
def bindKeywords (op : String) (path : Path) :
    List Param → List (String × Value) → List (String × Value) →
      Except Error (List (String × Value))
  | [], _, bound => .ok bound
  | p :: ps, given, bound => do
    let v ← match Sorted.get? p.name given with
      | some v => checkValue op path p v
      | none => .ok p.missing
    bindKeywords op path ps (Sorted.erase p.name given) (Sorted.put p.name v bound)

/-- Bind evaluated arguments to the parameters. -/
def bind (s : Signature) (op : String) (path : Path) (positional : List Value)
    (keywords : List (String × Value)) : Except Error Bound := do
  s.checkShape op path positional.length (keywords.map Prod.fst)
  let positional ← bindPositional op path s.rest s.positional positional
  let keywords ← bindKeywords op path s.keywords keywords []
  return ⟨positional, keywords⟩

end Signature

end SeriesLang
