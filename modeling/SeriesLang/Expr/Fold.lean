import SeriesLang.Expr.Basic

/-! # Constant folding

Sums, products and quotients of two numeric literals are replaced by their value, from the leaves
up, where the value is a literal again.
-/

namespace SeriesLang.Expr

/-- The exact value of a sum or product of integers, where it fits. -/
def foldInts? (op : String) (a b : Int) : Option Int :=
  match op with
  | "+" => Word.ofInt? (a + b)
  | "*" => Word.ofInt? (a * b)
  | _ => none

/-- The value of a sum, product or quotient of numbers, where it is finite. -/
def foldFloats? (op : String) (a b : Float) : Option Float :=
  let value :=
    match op with
    | "+" => some (a + b)
    | "*" => some (a * b)
    | "/" => if b == 0 then none else some (a / b)
    | _ => none
  value.filter Float.isFinite

/-- The literal that an application of two literals stands for. -/
def foldPair? (op : String) (a b : Expr) : Option Expr :=
  let exact :=
    match a, b with
    | .literal (.int a), .literal (.int b) => foldInts? op a b
    | _, _ => none
  match exact with
  | some n => some (.literal (.int n))
  | none =>
    match a.number?, b.number? with
    | some a, some b => (foldFloats? op a b).map (.literal ∘ .float)
    | _, _ => none

mutual

/-- Fold every application of `+`, `*` or `/` to two numeric literals. -/
def foldConstants : Expr → Expr
  | .literal l => .literal l
  | .symbol name => .symbol name
  | .call ⟨op, args, kwargs⟩ =>
    match foldArgs args, foldKwargs kwargs with
    | [a, b], [] => (foldPair? op a b).getD (.call ⟨op, [a, b], []⟩)
    | args, kwargs => .call ⟨op, args, kwargs⟩

/-- Fold in every argument. -/
def foldArgs : List Expr → List Expr
  | [] => []
  | e :: rest => foldConstants e :: foldArgs rest

/-- Fold in every keyword value. -/
def foldKwargs : List (String × Expr) → List (String × Expr)
  | [] => []
  | (name, e) :: rest => (name, foldConstants e) :: foldKwargs rest

end

end SeriesLang.Expr
