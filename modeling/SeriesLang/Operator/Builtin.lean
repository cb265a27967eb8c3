import SeriesLang.Operator.Combinator
import SeriesLang.Operator.Dates
import SeriesLang.Operator.Registry
import SeriesLang.Operator.Transform

/-! # Built-in operators

The operators that every registry starts with.
-/

namespace SeriesLang

/-- The built-in operators, in the order of their registration. -/
def Operator.builtins : List Operator :=
  [series, plus, times, divide, power, add, mul, seriesQuotient, smallest, largest, priority, rowMean,
   rowMin, rowMax, rowDeviation, clip, slice, resample, cumsum, rolling, timeShifted, asOf, constant,
   date, today, shifted, startOfMonth, endOfMonth]

/-- The registry of the built-in operators. -/
def Registry.builtin : Registry :=
  .ofList Operator.builtins

end SeriesLang
