import SeriesLang.Proofs.Series.Rows
import SeriesLang.Proofs.Success
import SeriesLang.Series.Aggregate

/-! # Access by index

Rows, buckets and trailing windows once more, with every cell and every slice taken by its index. An index out of
range is a fault, whatever that may be. There is none: a column is as long as the index, a strict row has a cell
of every input, no bucket is empty, and a trailing window ends at a point with enough points before it.
-/

namespace SeriesLang

variable {ε α β : Type} {fault : ε}

/-- The element at an index, unless it is out of range. -/
def elementAt (fault : ε) (xs : List α) (i : Int) : Except ε α :=
  if i < 0 then .error fault
  else match xs[i.toNat]? with
    | some x => .ok x
    | none => .error fault

/-- The elements from one index to another one, both included, unless they are out of range. -/
def elementsBetween (fault : ε) (xs : List α) (first last : Int) : Except ε (List α) :=
  if 0 ≤ first ∧ first ≤ last + 1 ∧ last < xs.length then
    .ok ((xs.take (last + 1).toNat).drop first.toNat)
  else .error fault

theorem elementAt_ok {xs : List α} {n : Nat} {x : α} (h : xs[n]? = some x) : elementAt fault xs n = .ok x := by
  rw [elementAt, if_neg (by omega), Int.toNat_natCast, h]

theorem elementsBetween_ok {xs : List α} {first last : Nat} (ordered : first ≤ last + 1)
    (inside : last < xs.length) :
    elementsBetween fault xs first last = .ok ((xs.drop first).take (last + 1 - first)) := by
  rw [elementsBetween, if_pos (by omega), List.drop_take]
  rfl

namespace Aggregate

/-- The value in the middle of a sorted list, or the mean of the two there, by index. -/
def middleAt (fault : ε) (values : List Float) : Except ε Float :=
  let sorted := values.mergeSort (fun a b => decide (rank a ≤ rank b))
  let half := sorted.length / 2
  if sorted.length % 2 = 0 then do
    let a ← elementAt fault sorted ((half : Int) - 1)
    let b ← elementAt fault sorted half
    return (a + b) / 2
  else elementAt fault sorted half

/-- The number for a group, if there is one, with the values taken by index. -/
def valueAt (fault : ε) (a : Aggregate) (values : List Float) : Except ε (Option Float) :=
  match a with
  | .first => (elementAt fault values 0).map some
  | .last => (elementAt fault values ((values.length : Int) - 1)).map some
  | .median => (middleAt fault values).map some
  | a => .ok (a.value? values)

theorem middleAt_eq {values : List Float} (nonempty : values ≠ []) :
    (middleAt fault values).map some = .ok (middle values) := by
  unfold middleAt middle
  have length : (values.mergeSort (fun a b => decide (rank a ≤ rank b))).length = values.length :=
    List.length_mergeSort values
  have positive := List.length_pos_iff.2 nonempty
  generalize values.mergeSort (fun a b => decide (rank a ≤ rank b)) = sorted at length
  dsimp only
  split
  · have low : sorted.length / 2 - 1 < sorted.length := by omega
    have high : sorted.length / 2 < sorted.length := by omega
    have pair : sorted.drop (sorted.length / 2 - 1) =
        sorted[sorted.length / 2 - 1] :: sorted[sorted.length / 2] :: sorted.drop (sorted.length / 2 + 1) := by
      rw [List.drop_eq_getElem_cons low, show sorted.length / 2 - 1 + 1 = sorted.length / 2 by omega,
        List.drop_eq_getElem_cons high]
    rw [show ((sorted.length / 2 : Nat) : Int) - 1 = ((sorted.length / 2 - 1 : Nat) : Int) by omega,
      elementAt_ok (List.getElem?_eq_getElem low), elementAt_ok (List.getElem?_eq_getElem high), pair]
    rfl
  · have inside : sorted.length / 2 < sorted.length := by omega
    rw [elementAt_ok (List.getElem?_eq_getElem inside), List.getElem?_eq_getElem inside]
    rfl

theorem valueAt_eq (a : Aggregate) {values : List Float} (nonempty : values ≠ []) :
    a.valueAt fault values = .ok (a.value? values) := by
  have positive := List.length_pos_iff.2 nonempty
  cases a with
  | first =>
      rw [valueAt, ← Int.natCast_zero, elementAt_ok (List.getElem?_eq_getElem positive), value?,
        List.head?_eq_getElem?, List.getElem?_eq_getElem positive]
      rfl
  | last =>
      have inside : values.length - 1 < values.length := by omega
      rw [valueAt, show (values.length : Int) - 1 = (values.length - 1 : Nat) by omega,
        elementAt_ok (List.getElem?_eq_getElem inside), value?, List.getLast?_eq_getElem?,
        List.getElem?_eq_getElem inside]
      rfl
  | median => exact middleAt_eq nonempty
  | _ => rfl

/-- Of no values there is no median. -/
example : Aggregate.median.valueAt () [] = .error () := by
  cbv

end Aggregate

namespace Series

variable {s : Series} {f : Frequency} {a : Aggregate} {fault : ε}

/-- The points that come of a list of cells, one for each that is not missing. -/
def ofCells (cells : List (Option (Instant × Float))) : Series :=
  .ofPoints (cells.filterMap id)

theorem ofCells_mapM {f : α → Except ε (Option (Instant × Float))} {g : α → Option (Instant × Float)}
    {xs : List α} (h : ∀ x ∈ xs, f x = .ok (g x)) :
    (xs.mapM f).map ofCells = .ok (.ofPoints (xs.filterMap g)) := by
  rw [mapM_eq_map h]
  show Except.ok (ofPoints ((xs.map g).filterMap id)) = _
  rw [List.filterMap_map]
  rfl

/-- The aggregate of a bucket, with the values taken by index. -/
def bucketAt (fault : ε) (a : Aggregate) (p : Instant × List Float) : Except ε (Option (Instant × Float)) := do
  return (← a.valueAt fault p.2).map (p.1, ·)

/-- The aggregate of each bucket, with the values taken by index. -/
def bucketsAt (fault : ε) (a : Aggregate) (groups : List (Instant × List Float)) : Except ε Series :=
  (groups.mapM (bucketAt fault a)).map ofCells

/-- The aggregate of the last so many points up to the one at an index, with the points taken by index. -/
def trailingAt (fault : ε) (s : Series) (count : Nat) (a : Aggregate) (p : Instant × Nat) :
    Except ε (Option (Instant × Float)) := do
  let values ← elementsBetween fault s.values ((p.2 : Int) + 1 - count) p.2
  return (← a.valueAt fault values).map (p.1, ·)

/-- The aggregate of the last so many points up to each point, with the points taken by index. -/
def rollingAt (fault : ε) (s : Series) (count : Nat) (a : Aggregate) : Except ε Series :=
  ((s.index.zipIdx.drop (count - 1)).mapM (s.trailingAt fault count a)).map ofCells

theorem ne_nil_of_mem_buckets {groups : List (Instant × List Float)} (h : s.buckets f = .ok groups)
    {p : Instant × List Float} (hp : p ∈ groups) : p.2 ≠ [] := by
  obtain ⟨entries, -, h⟩ := ok_of_bind h
  cases h
  have found := Sorted.get?_of_mem (Sorted.ascending_group entries) hp
  rw [Sorted.get?_group] at found
  split at found
  · rename_i there
    obtain ⟨q, hq, same⟩ := List.mem_map.1 there
    rw [← Option.some.inj found]
    refine List.ne_nil_of_mem (List.mem_map_of_mem (List.mem_filter.2 ⟨hq, ?_⟩))
    exact decide_eq_true same
  · cases found

theorem bucketsAt_eq {groups : List (Instant × List Float)} (h : s.buckets f = .ok groups) :
    bucketsAt fault a groups =
      .ok (.ofPoints (groups.filterMap fun p => (a.value? p.2).map (p.1, ·))) := by
  refine ofCells_mapM fun p hp => ?_
  show Except.bind (a.valueAt fault p.2) _ = _
  rw [Aggregate.valueAt_eq a (ne_nil_of_mem_buckets h hp)]
  rfl

/-- Going through a list from its end leaves what is behind an element, how much that is, and the runs there. -/
theorem foldr_runs {count : Nat} (positive : 0 < count) (f : List α → β) (xs : List α) :
    xs.foldr (fun x (rest, size, out) =>
      (x :: rest, size + 1, if size + 1 < count then out else f ((x :: rest).take count) :: out)) ([], 0, []) =
        (xs, xs.length, (List.range (xs.length + 1 - count)).map fun i => f ((xs.drop i).take count)) := by
  induction xs with
  | nil =>
      rw [List.foldr_nil, List.length_nil, show 0 + 1 - count = 0 by omega]
      rfl
  | cons x xs ih =>
      rw [List.foldr_cons, ih]
      dsimp only
      rw [List.length_cons]
      split
      · rename_i short
        rw [show xs.length + 1 - count = 0 by omega, show xs.length + 1 + 1 - count = 0 by omega]
        rfl
      · rename_i enough
        rw [show xs.length + 1 + 1 - count = xs.length + 1 - count + 1 by omega, List.range_succ_eq_map,
          List.map_cons, List.map_map]
        rfl

theorem mapRuns_eq {count : Nat} (positive : 0 < count) (f : List α → β) (xs : List α) :
    mapRuns count f xs = (List.range (xs.length + 1 - count)).map fun i => f ((xs.drop i).take count) := by
  rw [mapRuns, foldr_runs positive]

theorem length_values (s : Series) : s.values.length = s.index.length := by
  rw [values, index, List.length_map, List.length_map]

/-- The window of a point that is not skipped has as many values as it should. -/
theorem trailingAt_eq {count i : Nat} (positive : 0 < count) (inside : count - 1 + i < s.values.length)
    (t : Instant) : s.trailingAt fault count a (t, count - 1 + i) =
      .ok ((a.value? ((s.values.drop i).take count)).map (t, ·)) := by
  have first : ((count - 1 + i : Nat) : Int) + 1 - count = (i : Nat) := by omega
  have nonempty : (s.values.drop i).take count ≠ [] := by
    rw [ne_eq, ← List.length_eq_zero_iff, List.length_take, List.length_drop]
    omega
  rw [trailingAt, first, elementsBetween_ok (by omega) inside, show count - 1 + i + 1 - i = count by omega]
  show Except.bind (a.valueAt fault _) _ = _
  rw [Aggregate.valueAt_eq a nonempty]
  rfl

theorem rollingAt_eq {count : Nat} (positive : 0 < count) :
    s.rollingAt fault count a = .ok (s.rolling count a) := by
  have length := s.length_values
  let window (p : Instant × Nat) : Option Float := a.value? ((s.values.drop (p.2 + 1 - count)).take count)
  have zipped : (s.index.drop (count - 1)).zip (mapRuns count a.value? s.values) =
      (s.index.zipIdx.drop (count - 1)).map fun p => (p.1, window p) := by
    rw [mapRuns_eq positive]
    apply List.ext_getElem
    · simp only [List.length_zip, List.length_drop, List.length_map, List.length_range, List.length_zipIdx]
      omega
    · intro i hi hi'
      simp only [List.getElem_zip, List.getElem_drop, List.getElem_map, List.getElem_range,
        List.getElem_zipIdx, Nat.zero_add, window, show count - 1 + i + 1 - count = i by omega]
  rw [rolling, zipped, List.filterMap_map]
  refine ofCells_mapM fun p hp => ?_
  obtain ⟨i, hi, rfl⟩ := List.getElem_of_mem hp
  rw [List.length_drop, List.length_zipIdx] at hi
  simp only [List.getElem_drop, List.getElem_zipIdx, Nat.zero_add, Function.comp_apply, window,
    show count - 1 + i + 1 - count = i by omega]
  exact trailingAt_eq positive (by omega) _

end Series

namespace Combine

/-- The columns of several series along their common index, filled if that is wanted. -/
def columnsOf (fill : Bool) (inputs : List Series) : List (List (Option Float)) :=
  inputs.map fun s =>
    let cells := (indexOf inputs).map s.get?
    if fill then Fill.column s.options cells else cells

/-- The row at an index, with the cells taken by index. -/
def rowAt (fault : ε) (columns : List (List (Option Float))) (p : Instant × Nat) :
    Except ε (Instant × List (Option Float)) := do
  return (p.1, ← columns.mapM fun column => elementAt fault column p.2)

/-- The rows of several series, with the cells taken by index. -/
def rowsAt (fault : ε) (fill : Bool) (inputs : List Series) : Except ε (List (Instant × List (Option Float))) :=
  (indexOf inputs).zipIdx.mapM (rowAt fault (columnsOf fill inputs))

/-- Combine a filled row in which no cell is missing, with a function that may take values by index. -/
def strictCellAt (f : List Float → Except ε Float) (p : Instant × List (Option Float)) :
    Except ε (Option (Instant × Float)) :=
  match p.2.mapM id with
  | some values => (f values).map fun v => some (p.1, v)
  | none => .ok none

/-- Combine the filled rows in which no cell is missing, with the cells taken by index. -/
def strictAt (fault : ε) (f : List Float → Except ε Float) (inputs : List Series) : Except ε Series := do
  let rows ← rowsAt fault true inputs
  (rows.mapM (strictCellAt f)).map Series.ofCells

theorem length_of_mem_columnsOf {fill : Bool} {inputs : List Series} {column : List (Option Float)}
    (h : column ∈ columnsOf fill inputs) : column.length = (indexOf inputs).length := by
  obtain ⟨s, -, rfl⟩ := List.mem_map.1 h
  dsimp only
  split
  · rw [Fill.length_column, List.length_map]
  · rw [List.length_map]

/-- Every column has a cell at every instant of the index. -/
theorem rowsAt_eq (fill : Bool) (inputs : List Series) :
    rowsAt fault fill inputs = .ok (if fill then filledRows inputs else rows inputs) := by
  have distinct : (indexOf inputs).Nodup := (ascending_indexOf inputs).imp Instant.ne_of_lt
  have cells : ∀ p ∈ (indexOf inputs).zipIdx, rowAt fault (columnsOf fill inputs) p =
      .ok (p.1, (columnsOf fill inputs).map fun column => column[p.2]?.join) := by
    intro p hp
    obtain ⟨i, hi, rfl⟩ := List.getElem_of_mem hp
    rw [List.length_zipIdx] at hi
    simp only [List.getElem_zipIdx, Nat.zero_add]
    have there : ∀ column ∈ columnsOf fill inputs,
        elementAt fault column (i : Int) = .ok column[i]?.join := by
      intro column hcolumn
      have inside : i < column.length := length_of_mem_columnsOf hcolumn ▸ hi
      rw [elementAt_ok (List.getElem?_eq_getElem inside), List.getElem?_eq_getElem inside]
      rfl
    show Except.bind (List.mapM _ _) _ = _
    rw [mapM_eq_map there]
    rfl
  rw [rowsAt, mapM_eq_map cells]
  congr 1
  cases fill with
  | false =>
      rw [if_neg Bool.false_ne_true, rows_eq]
      refine List.ext_getElem (by simp) fun i hi hi' => ?_
      have inside : i < (indexOf inputs).length := by simpa using hi'
      simp [columnsOf, List.getElem?_eq_getElem inside]
  | true =>
      rw [if_pos rfl, filledRows_eq]
      refine List.ext_getElem (by simp) fun i hi hi' => ?_
      simp [columnsOf, filledCell, distinct.idxOf_getElem]

theorem strictAt_eq {f : List Float → Except ε Float} {g : List Float → Float} {inputs : List Series}
    (same : ∀ values, values.length = inputs.length → f values = .ok (g values)) :
    strictAt fault f inputs = .ok (strict g inputs) := by
  rw [strictAt, rowsAt_eq]
  refine Series.ofCells_mapM fun p hp => ?_
  obtain ⟨t, row⟩ := p
  have length : row.length = inputs.length := by
    rw [if_pos rfl, filledRows_eq] at hp
    obtain ⟨t, -, same⟩ := List.mem_map.1 hp
    cases same
    rw [List.length_map]
  show (match row.mapM id with | some values => (f values).map _ | none => _) = .ok ((row.mapM id).map _)
  cases complete : row.mapM id with
  | none => rfl
  | some values =>
      rw [mapM_id_eq_some_iff.1 complete, List.length_map] at length
      dsimp only
      rw [same values length]
      rfl

end Combine

end SeriesLang
