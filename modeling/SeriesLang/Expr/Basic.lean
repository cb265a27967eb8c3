import SeriesLang.Decimal.Notation
import SeriesLang.Sorted
import SeriesLang.Word

/-! # Expressions

A formula is a tree of operator applications over literals and bare symbols. The keywords of an
application are kept sorted by name, so the order in which they were written is not part of it.
-/

namespace SeriesLang

/-- A constant of the language. Integers fit in 64 bits and floats are finite. -/
inductive Literal where
  | int (value : Int)
  | float (value : Float)
  | str (value : String)
  | bool (value : Bool)
deriving DecidableEq, Inhabited

/-- An operator applied to positional and keyword arguments. -/
structure Application (α : Type) where
  op : String
  args : List α
  /-- Sorted by name, each name once. -/
  kwargs : List (String × α)
deriving Inhabited

/-- An expression of the formula language. -/
inductive Expr where
  | literal (value : Literal)
  /-- A bare word in argument position. -/
  | symbol (name : String)
  | call (application : Application Expr)
deriving Inhabited

/-- The applications whose arguments are expressions. -/
abbrev Call := Application Expr

namespace Application

/-- Add a keyword; `none` if its name is taken. -/
def addKeyword? {α : Type} (name : String) (value : α) (kwargs : List (String × α)) :
    Option (List (String × α)) :=
  if Sorted.contains name kwargs then none else some (Sorted.put name value kwargs)

/-- The value of a keyword. -/
def keyword? {α : Type} (call : Application α) (name : String) : Option α :=
  Sorted.get? name call.kwargs

end Application

namespace Expr

/-- The string of a string literal or the name of a symbol. -/
def text? : Expr → Option String
  | .literal (.str s) => some s
  | .symbol name => some name
  | _ => none

/-- The number of a numeric literal. -/
def number? : Expr → Option Float
  | .literal (.int n) => some (Float.ofInt n)
  | .literal (.float v) => some v
  | _ => none

/-- The application, if the expression is one. -/
def call? : Expr → Option Call
  | .call c => some c
  | _ => none

/-- The expression that reads a series by its name. -/
def series (name : String) : Expr :=
  .call ⟨"series", [.literal (.str name)], []⟩

end Expr

/-- The name of the series that an application `(series name …)` reads. -/
def Application.seriesName? (call : Call) : Option String :=
  if call.op = "series" then call.args.head?.bind Expr.text? else none

namespace Expr

mutual

/-- Every application in the expression: each before its arguments, which come in order, positional
    ones first. -/
def calls : Expr → List Call
  | .literal _ => []
  | .symbol _ => []
  | .call ⟨op, args, kwargs⟩ => ⟨op, args, kwargs⟩ :: (callsOfArgs args ++ callsOfKwargs kwargs)

/-- Every application in a list of arguments. -/
def callsOfArgs : List Expr → List Call
  | [] => []
  | e :: rest => calls e ++ callsOfArgs rest

/-- Every application in a list of keywords. -/
def callsOfKwargs : List (String × Expr) → List Call
  | [] => []
  | (_, e) :: rest => calls e ++ callsOfKwargs rest

end

/-- The names in every `series` application, in visiting order. -/
def seriesNames (e : Expr) : List String :=
  e.calls.filterMap Application.seriesName?

mutual

/-- Equality of expressions is decided part by part. -/
def decEq : (a b : Expr) → Decidable (a = b)
  | .literal a, .literal b => decidable_of_iff (a = b) (by simp)
  | .symbol a, .symbol b => decidable_of_iff (a = b) (by simp)
  | .call ⟨o, as, ks⟩, .call ⟨p, bs, ls⟩ =>
    match decEqArgs as bs, decEqKwargs ks ls with
    | .isTrue h, .isTrue k => decidable_of_iff (o = p) (by simp [h, k])
    | .isFalse h, _ => .isFalse (by simp [h])
    | _, .isFalse h => .isFalse (by simp [h])
  | .literal _, .symbol _ | .literal _, .call _ | .symbol _, .literal _ | .symbol _, .call _
  | .call _, .literal _ | .call _, .symbol _ => .isFalse (by simp)

/-- Equality of argument lists. -/
def decEqArgs : (a b : List Expr) → Decidable (a = b)
  | [], [] => .isTrue rfl
  | [], _ :: _ | _ :: _, [] => .isFalse (by simp)
  | a :: as, b :: bs =>
    match decEq a b, decEqArgs as bs with
    | .isTrue h, .isTrue k => .isTrue (by simp [h, k])
    | .isFalse h, _ => .isFalse (by simp [h])
    | _, .isFalse h => .isFalse (by simp [h])

/-- Equality of keyword lists. -/
def decEqKwargs : (a b : List (String × Expr)) → Decidable (a = b)
  | [], [] => .isTrue rfl
  | [], _ :: _ | _ :: _, [] => .isFalse (by simp)
  | (k, a) :: as, (l, b) :: bs =>
    match decEq a b, decEqKwargs as bs with
    | .isTrue h, .isTrue g => decidable_of_iff (k = l) (by simp [h, g])
    | .isFalse h, _ => .isFalse (by simp [h])
    | _, .isFalse h => .isFalse (by simp [h])

end

instance : DecidableEq Expr := decEq

end Expr

end SeriesLang
