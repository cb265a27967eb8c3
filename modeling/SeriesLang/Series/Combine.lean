import SeriesLang.Series.Fill
import SeriesLang.Time.Index

/-! # Combining series

Several series are laid out on the union of their indexes, one column each, and combined row by row.
-/

namespace SeriesLang.Combine

/-- One more instant of an index: the points that are still to come, and the cells so far, last one
    first. -/
def cellStep :
    List (Instant × Float) × List (Option Float) → Instant →
      List (Instant × Float) × List (Option Float)
  | ([], cells), _ => ([], none :: cells)
  | ((u, v) :: rest, cells), t =>
    if t = u then (rest, some v :: cells) else ((u, v) :: rest, none :: cells)

/-- The values of ascending points at the instants of an index that contains theirs. -/
def cellsOn (index : List Instant) (points : List (Instant × Float)) : List (Option Float) :=
  (index.foldl cellStep (points, [])).2.reverse

/-- One more instant of an index: what is left of the columns, and the rows so far, last one first. -/
def rowStep :
    List (List (Option Float)) × List (Instant × List (Option Float)) → Instant →
      List (List (Option Float)) × List (Instant × List (Option Float))
  | (columns, rows), t =>
    (columns.map List.tail, (t, columns.map (fun column => column.head?.join)) :: rows)

/-- The rows of an index: each instant with its cell of every column. -/
def rowsOf (index : List Instant) (columns : List (List (Option Float))) :
    List (Instant × List (Option Float)) :=
  (index.foldl rowStep (columns, [])).2.reverse

/-- The union of the indexes of several series. -/
def indexOf (inputs : List Series) : List Instant :=
  Index.union (inputs.map Series.index)

/-- The rows of several series, with missing cells as they are. -/
def rows (inputs : List Series) : List (Instant × List (Option Float)) :=
  let index := indexOf inputs
  rowsOf index (inputs.map (fun s => cellsOn index s.points))

/-- The rows of several series, each column filled as the options of its series say. -/
def filledRows (inputs : List Series) : List (Instant × List (Option Float)) :=
  let index := indexOf inputs
  rowsOf index (inputs.map (fun s => Fill.column s.options (cellsOn index s.points)))

/-- The weight of a series, one if it has none. -/
def weight (s : Series) : Float :=
  s.options.weight.getD 1

/-- Combine the filled rows in which no cell is missing. -/
def strict (f : List Float → Float) (inputs : List Series) : Series :=
  .ofPoints ((filledRows inputs).filterMap (fun (t, row) => (row.mapM id).map (t, f ·)))

/-- Combine the cells of each row that are not missing, each with the weight of its series. Unless
    missing cells are skipped, a row with one is left out. -/
def lenient (f : List (Float × Float) → Option Float) (skipMissing : Bool) (inputs : List Series) :
    Series :=
  let weights := inputs.map weight
  .ofPoints ((rows inputs).filterMap (fun (t, row) =>
    if !skipMissing && row.any Option.isNone then none
    else
      let cells := (row.zip weights).filterMap (fun (cell, w) => cell.map (·, w))
      if cells.isEmpty then none else (f cells).map (t, ·)))

/-- At each instant the value of the first series that has one. -/
def patch (inputs : List Series) : Series :=
  .ofPoints ((rows inputs).filterMap (fun (t, row) => (row.findSome? id).map (t, ·)))

/-- The smaller of two numbers; one that is NaN gives way. -/
def lesser (a b : Float) : Float :=
  if a < b then a else if b.isNaN then a else b

/-- The greater of two numbers; one that is NaN gives way. -/
def greater (a b : Float) : Float :=
  if b < a then a else if b.isNaN then a else b

/-- The sum of numbers, from the left. -/
def sum (values : List Float) : Float :=
  values.foldl (· + ·) (-0.0)

/-- The product of numbers, from the left. -/
def product (values : List Float) : Float :=
  values.foldl (· * ·) 1

/-- The mean of numbers. -/
def mean (values : List Float) : Float :=
  sum values / Float.ofNat values.length

/-- The mean of weighted numbers, unless the weights cancel out. -/
def weightedMean (cells : List (Float × Float)) : Option Float :=
  let total := sum (cells.map Prod.snd)
  if total == 0 then none else some (sum (cells.map (fun (v, w) => v * w)) / total)

/-- The standard deviation of a sample of at least two numbers. -/
def sampleDeviation (values : List Float) : Option Float :=
  if values.length < 2 then none
  else
    let m := mean values
    some (sum (values.map (fun v => (v - m) * (v - m))) / (Float.ofNat values.length - 1)).sqrt

/-- The smallest of the numbers. -/
def least (values : List Float) : Option Float :=
  match values with
  | [] => none
  | v :: rest => some (rest.foldl lesser v)

/-- The greatest of the numbers. -/
def greatest (values : List Float) : Option Float :=
  match values with
  | [] => none
  | v :: rest => some (rest.foldl greater v)

end SeriesLang.Combine
