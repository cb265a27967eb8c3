import SeriesLang.Operator.Basic

/-! # Scalar arithmetic

Sums, products, quotients and powers of numbers, and of every value of a series with a number.
-/

namespace SeriesLang.Operator

/-- Not a number. -/
def undefined : Float := 0.0 / 0.0

/-- A sum or product: exact on integers as long as it fits, else on floats. -/
def arithmeticValue (exact : Int → Int → Int) (rounded : Float → Float → Float) (a b : Value) :
    Value :=
  match a, b with
  | .int x, .int y =>
    match Word.ofInt? (exact x y) with
    | some n => .int n
    | none => .float (rounded (Float.ofInt x) (Float.ofInt y))
  | a, .series s => .series (s.mapValues (rounded (a.number?.getD undefined)))
  | a, b => .float (rounded (a.number?.getD undefined) (b.number?.getD undefined))

/-- With a number in front, `+` and `*` give their row a coefficient and go on with the rest. -/
def coefficientEditor (symbol : String) (call : Call) : List EditorStep :=
  match call.args.head?.bind Expr.number? with
  | some k =>
    .coefficient (symbol ++ " " ++ Decimal.text .literal k)
      :: (List.range' 1 (call.args.length - 1)).map .walk
  | none => []

/-- A sum or product as an operator. -/
def arithmetic (name symbol doc : String) (exact : Int → Int → Int)
    (rounded : Float → Float → Float) : Operator :=
  { Operator.ofValues name
      { positional := [{ name := "num", type := .number },
          { name := "num_or_series", type := .numberOrSeries }] }
      (fun args =>
        .ok (arithmeticValue exact rounded (args.positionalAt 0) (args.positionalAt 1))) with
    editor := some (coefficientEditor symbol)
    pushdown := true
    doc }

/-- The sum with a number. -/
def plus : Operator :=
  arithmetic "+" "+" "Add a number to a number or to every point of a series." (· + ·) (· + ·)

/-- The product with a number. -/
def times : Operator :=
  arithmetic "*" "x" "Multiply a number or every point of a series by a number." (· * ·) (· * ·)

/-- A function of a number, on a number or on every value of a series. -/
def onValue (f : Float → Float) : Value → Value
  | .series s => .series (s.mapValues f)
  | v => .float (f (v.number?.getD undefined))

/-- The quotient by a number. -/
def divide : Operator :=
  { Operator.ofValues "/"
      { positional := [{ name := "num_or_series", type := .numberOrSeries },
          { name := "num", type := .number }] }
      (fun args => do
        let divisor ← args.numberAt 1
        if divisor == 0 then .error (args.failure "division by zero")
        else return onValue (· / divisor) (args.positionalAt 0)) with
    pushdown := true
    doc := "Divide a number or every point of a series by a number." }

/-- The power with a number as exponent. -/
def power : Operator :=
  { Operator.ofValues "**"
      { positional := [{ name := "num_or_series", type := .numberOrSeries },
          { name := "exponent", type := .number }] }
      (fun args => do
        let exponent ← args.numberAt 1
        return onValue (·.pow exponent) (args.positionalAt 0)) with
    pushdown := true
    doc := "Raise a number or every point of a series to a power." }

end SeriesLang.Operator
