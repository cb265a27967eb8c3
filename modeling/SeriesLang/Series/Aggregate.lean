import SeriesLang.Series.Combine
import SeriesLang.Time.Frequency

/-! # Aggregating a series

Totals over the buckets of a calendar grid, over trailing windows of points, and from the start.
-/

namespace SeriesLang

/-- A number for a group of values. -/
inductive Aggregate where
  | mean
  | sum
  | min
  | max
  | first
  | last
  | count
  | median
  | deviation
deriving DecidableEq, Repr

namespace Aggregate

/-- The rank of a value among all doubles: by size, and a negative zero comes before a positive one. -/
def rank (v : Float) : Int :=
  let bits : Int := v.toBits.toNat
  if bits < 9223372036854775808 then bits else 9223372036854775807 - bits

/-- The value in the middle, or the mean of the two in the middle. -/
def middle (values : List Float) : Option Float :=
  let sorted := values.mergeSort (fun a b => decide (rank a ≤ rank b))
  let half := sorted.length / 2
  if sorted.length % 2 = 0 then
    match sorted.drop (half - 1) with
    | a :: b :: _ => some ((a + b) / 2)
    | _ => none
  else sorted[half]?

/-- The number for a group, if there is one. -/
def value? (a : Aggregate) (values : List Float) : Option Float :=
  match a with
  | .mean => some (Combine.mean values)
  | .sum => some (Combine.sum values)
  | .min => some (values.foldl Combine.lesser Decimal.infinity)
  | .max => some (values.foldl Combine.greater (-Decimal.infinity))
  | .first => values.head?
  | .last => values.getLast?
  | .count => some (Float.ofNat values.length)
  | .median => middle values
  | .deviation => Combine.sampleDeviation values

/-- The aggregates of buckets, by name. -/
def ofBucketName? : String → Option Aggregate
  | "mean" => some .mean
  | "sum" => some .sum
  | "min" => some .min
  | "max" => some .max
  | "first" => some .first
  | "last" => some .last
  | "count" => some .count
  | _ => none

/-- The aggregates of trailing windows, by name. -/
def ofRollingName? : String → Option Aggregate
  | "mean" => some .mean
  | "sum" => some .sum
  | "min" => some .min
  | "max" => some .max
  | "median" => some .median
  | "std" => some .deviation
  | _ => none

end Aggregate

namespace Series

/-- The values in each bucket of a grid, in order; buckets ascend. -/
def buckets (s : Series) (f : Frequency) : Except Abort (List (Instant × List Float)) := do
  return Sorted.group (← s.points.mapM (fun (t, v) => do return (← f.floor t, v)))

/-- The aggregate of each bucket of a grid, at the start of the bucket. -/
def resample (s : Series) (f : Frequency) (a : Aggregate) : Except Abort Series := do
  return .ofPoints ((← s.buckets f).filterMap (fun (t, values) => (a.value? values).map (t, ·)))

/-- What a function makes of each run of so many neighbours in a list. The list is gone through from
    its end, with the elements behind each one and their number. -/
def mapRuns {α β : Type} (count : Nat) (f : List α → β) (xs : List α) : List β :=
  (xs.foldr (fun x (rest, size, out) =>
    (x :: rest, size + 1, if size + 1 < count then out else f ((x :: rest).take count) :: out))
    ([], 0, [])).2.2

/-- The aggregate of the last so many points up to each point. -/
def rolling (s : Series) (count : Nat) (a : Aggregate) : Series :=
  .ofPoints (((s.index.drop (count - 1)).zip (mapRuns count a.value? s.values)).filterMap
    (fun (t, v) => v.map (t, ·)))

/-- The total of all values up to each point. -/
def cumulative (s : Series) : Series :=
  .ofPoints (s.points.foldl (fun (total, out) (t, v) => (total + v, (t, total + v) :: out))
    ((0 : Float), [])).2.reverse

/-- Move every point by a span; a point that would leave the range is dropped. -/
def moved (s : Series) (delta : Int) : Series :=
  (ofPoints (s.points.filterMap (fun (t, v) => (t.addSeconds? delta).map (·, v)))).withOptions
    s.options

end Series

end SeriesLang
