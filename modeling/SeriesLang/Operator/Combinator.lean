import SeriesLang.Operator.Scalar
import SeriesLang.Series.Combine

/-! # Combinators

The operators that align several series and combine them row by row.
-/

namespace SeriesLang.Operator

/-- Every argument of a combinator has a row of its own. -/
def combinatorEditor (call : Call) : List EditorStep :=
  (List.range call.args.length).map .row

/-- An operator on any number of series, at least one. -/
def combinator (name : String) (f : List Series → Series) : Operator :=
  { Operator.ofValues name { rest := some { name := "series", type := .series }, minRest := 1 }
      (fun args => do return .series (f (← args.seriesFrom 0))) with
    editor := some combinatorEditor
    pushdown := true }

/-- The sum of series where all have a value. -/
def add : Operator := combinator "add" (Combine.strict Combine.sum)

/-- The product of series where all have a value. -/
def mul : Operator := combinator "mul" (Combine.strict Combine.product)

/-- The first series passes as it is if there is no other, else the first value at each instant. -/
def byPriority : List Series → Series
  | [s] => s
  | inputs => Combine.patch inputs

/-- The first series that has a value. -/
def priority : Operator := combinator "priority" byPriority

/-- The quotient of the first two values of a row. -/
def quotient : List Float → Float
  | a :: b :: _ => a / b
  | _ => undefined

/-- The quotient of two series where it is finite. -/
def seriesQuotient : Operator :=
  { Operator.ofValues "div"
      { positional := [{ name := "numerator", type := .series },
          { name := "denominator", type := .series }] }
      (fun args => do
        let s := Combine.strict quotient (← args.seriesFrom 0)
        return .series (s.retain (fun _ v => v.isFinite))) with
    editor := some combinatorEditor
    pushdown := true
    doc := "Element-wise division of two series; zero denominators yield no point." }

/-- The extreme value of numbers, or of each row of series where all have a value. -/
def extremum (name : String) (pick : Float → Float → Float) : Operator :=
  { Operator.ofValues name { rest := some { name := "x", type := .numberOrSeries }, minRest := 1 }
      (fun args => do
        if args.positional.all (fun v => v.series?.isSome) then
          return .series (Combine.strict (fun row => row.foldl pick undefined)
            (← args.seriesFrom 0))
        else match args.positional.mapM Value.number? with
          | some numbers => return .float (numbers.foldl pick undefined)
          | none => .error (args.failure "cannot mix numbers and series")) with
    editor := some combinatorEditor
    pushdown := true }

/-- The smallest value. -/
def smallest : Operator := extremum "min" Combine.lesser

/-- The greatest value. -/
def largest : Operator := extremum "max" Combine.greater

/-- A number for each row of series, from the values that it has or only where all have one. -/
def rowReduction (name : String) (f : List (Float × Float) → Option Float) : Operator :=
  { Operator.ofValues name
      { rest := some { name := "series", type := .series }
        minRest := 1
        keywords := [⟨"skipna", .bool, some (.bool true)⟩] }
      (fun args => do
        return .series (Combine.lenient f (args.boolKeyword "skipna" true) (← args.seriesFrom 0)))
    with
    editor := some combinatorEditor
    pushdown := true }

/-- The weighted mean of each row. -/
def rowMean : Operator := rowReduction "row-mean" Combine.weightedMean

/-- The smallest value of each row. -/
def rowMin : Operator := rowReduction "row-min" (fun cells => Combine.least (cells.map Prod.fst))

/-- The greatest value of each row. -/
def rowMax : Operator := rowReduction "row-max" (fun cells => Combine.greatest (cells.map Prod.fst))

/-- The standard deviation of each row. -/
def rowDeviation : Operator :=
  rowReduction "std" (fun cells => Combine.sampleDeviation (cells.map Prod.fst))

end SeriesLang.Operator
