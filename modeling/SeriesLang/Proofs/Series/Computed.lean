import SeriesLang.Proofs.Series.Edits
import SeriesLang.Proofs.Series.Indexing

/-! # Computed numbers

The operations on series compute numbers for instants, and some of these are NaN: a zero divided by a zero, an
infinity taken from itself. The series that comes of it lists the others. An instant whose number is NaN has no
point, and one that has a point has the number that was computed for it.
-/

namespace SeriesLang

namespace Series

variable {s : Series} {t : Instant} {f : Frequency} {a : Aggregate}

/-- The series lists the numbers that were computed for instants, but for those that are NaN. -/
def Keeps (computed : Instant → Option Float) (s : Series) : Prop :=
  Tabulates s.points (fun t => (computed t).bind defined?)

theorem keeps_iff {computed : Instant → Option Float} :
    Keeps computed s ↔ ∀ t, s.get? t = (computed t).bind defined? := by
  constructor
  · intro kept t
    exact Option.ext fun v => get?_eq_some_iff.trans (kept.lists t v).symm
  · intro same
    have values : s.get? = fun t => (computed t).bind defined? := funext same
    rw [Keeps, ← values]
    exact s.tabulates

theorem get?_defined (s : Series) (t : Instant) : (s.get? t).bind defined? = s.get? t := by
  cases found : s.get? t with
  | none => rfl
  | some v => exact defined?_of_mem (p := (t, v)) (get?_eq_some_iff.1 found)

/-- Numbers that are taken from series are none of them NaN. -/
theorem keeps_of_eq {computed : Instant → Option Float} (same : ∀ t, s.get? t = computed t) :
    Keeps computed s :=
  keeps_iff.2 fun t => by rw [← same, get?_defined]

/-- The values of the points up to an instant, in the order of time. -/
def valuesUpTo (s : Series) (t : Instant) : List Float :=
  (s.points.filter (fun p => decide (p.1 ≤ t))).map Prod.snd

/-- The values of the points that a grid puts into the bucket of an instant, in the order of time. -/
def valuesIn (s : Series) (f : Frequency) (b : Instant) : List Float :=
  (s.points.filter (fun p => decide ((f.floor p.1).toOption = some b))).map Prod.snd

/-- The last so many elements of a list. -/
def lastly {α : Type} (count : Nat) (xs : List α) : List α :=
  xs.drop (xs.length - count)

/-- What the operations compute of series for an instant, NaN or not. -/
inductive Computes : List Series → (Instant → Option Float) → Prop
  | mapped (s : Series) (f : Float → Float) : Computes [s] (fun t => (s.get? t).map f)
  | picked (s : Series) (keep : Instant → Float → Bool) :
      Computes [s] (fun t => (s.get? t).filter (keep t))
  | pruned (s : Series) (count : Nat) : Computes [s] (Edit.effect s.get? (.pruneLast count))
  | strict (inputs : List Series) (f : List Float → Float) :
      Computes inputs (fun t => if t ∈ Combine.indexOf inputs then
        ((inputs.map (Combine.filledCell (Combine.indexOf inputs) t)).mapM id).map f else none)
  | lenient (inputs : List Series) (f : List (Float × Float) → Option Float) (skipMissing : Bool) :
      Computes inputs (fun t => if t ∈ Combine.indexOf inputs then
        Combine.reduceRow f skipMissing (inputs.map Combine.weight) (inputs.map (fun s => s.get? t))
      else none)
  | patched (inputs : List Series) : Computes inputs (fun t => inputs.findSome? (fun s => s.get? t))
  | bucketed (s : Series) (f : Frequency) (a : Aggregate) :
      Computes [s] (fun b => if s.valuesIn f b = [] then none else a.value? (s.valuesIn f b))
  | trailing (s : Series) (count : Nat) (a : Aggregate) :
      Computes [s] (fun t => if t ∈ s.index ∧ count ≤ (s.valuesUpTo t).length then
        a.value? (lastly count (s.valuesUpTo t)) else none)
  | total (s : Series) :
      Computes [s] (fun t => if t ∈ s.index then some ((s.valuesUpTo t).foldl (· + ·) 0) else none)

theorem keeps_mapValues (s : Series) (f : Float → Float) :
    Keeps (fun t => (s.get? t).map f) (s.mapValues f) :=
  keeps_iff.2 fun t => by rw [get?_mapValues, Option.bind_map]; rfl

theorem keeps_strict (f : List Float → Float) (inputs : List Series) :
    Keeps (fun t => if t ∈ Combine.indexOf inputs then
      ((inputs.map (Combine.filledCell (Combine.indexOf inputs) t)).mapM id).map f else none)
      (Combine.strict f inputs) :=
  keeps_iff.2 fun t => by
    rw [Combine.get?_strict]
    split <;> rfl

theorem keeps_lenient (f : List (Float × Float) → Option Float) (skipMissing : Bool)
    (inputs : List Series) : Keeps (fun t => if t ∈ Combine.indexOf inputs then
      Combine.reduceRow f skipMissing (inputs.map Combine.weight) (inputs.map (fun s => s.get? t))
    else none) (Combine.lenient f skipMissing inputs) :=
  keeps_iff.2 fun t => by
    rw [Combine.get?_lenient]
    split <;> rfl

theorem keeps_patch (inputs : List Series) :
    Keeps (fun t => inputs.findSome? (fun s => s.get? t)) (Combine.patch inputs) :=
  keeps_of_eq fun t => by
    rw [Combine.get?_patch, List.findSome?_map]
    rfl

/-- Points that move to another instant may meet there; the last one stays. -/
theorem keeps_moved (s : Series) (delta : Int) : Keeps (fun t =>
    latest t (s.points.filterMap (fun p => (p.1.addSeconds? delta).map (·, p.2)))) (s.moved delta) :=
  keeps_iff.2 fun t => get?_ofPoints_latest _ t

/-- Where the value depends on nothing but the instant it does not matter in which order points are set. -/
theorem latest_filterMap (index : List Instant) (g : Instant → Option Float) (t : Instant) :
    latest t (index.filterMap (fun t => (g t).map (t, ·))) = if t ∈ index then g t else none := by
  induction index with
  | nil => rfl
  | cons u index ih =>
      by_cases same : t = u
      · subst same
        rw [if_pos List.mem_cons_self]
        cases value : g t with
        | none => rw [List.filterMap_cons_none (by rw [value]; rfl), ih, value, ite_self]
        | some v =>
            rw [List.filterMap_cons_some (by rw [value]; rfl), latest_cons, ih, value, if_pos rfl]
            split <;> rfl
      · have rest : latest t ((u :: index).filterMap (fun t => (g t).map (t, ·))) =
            latest t (index.filterMap (fun t => (g t).map (t, ·))) := by
          cases value : g u with
          | none => rw [List.filterMap_cons_none (by rw [value]; rfl)]
          | some v =>
              rw [List.filterMap_cons_some (by rw [value]; rfl), latest_cons, if_neg (Ne.symm same),
                Option.or_none]
        rw [rest, ih]
        simp only [List.mem_cons, same, false_or]

theorem keeps_grid (grid : List Instant) (v : Float) :
    Keeps (fun t => if t ∈ grid then some v else none) (.ofPoints (grid.map (·, v))) :=
  keeps_iff.2 fun t => by
    have points : grid.map (·, v) = grid.filterMap (fun t => (some v).map (t, ·)) := by
      rw [← List.filterMap_eq_map]
      rfl
    rw [get?_ofPoints_latest, points, latest_filterMap]

section Totals

/-- The points of a list with the totals up to them, which start from a number. -/
def totals (start : Float) : List (Instant × Float) → List (Instant × Float)
  | [] => []
  | (t, v) :: rest => (t, start + v) :: totals (start + v) rest

theorem foldl_totals (points : List (Instant × Float)) (start : Float) (out : List (Instant × Float)) :
    (points.foldl (fun (total, out) (t, v) => (total + v, (t, total + v) :: out)) (start, out)).2 =
      (totals start points).reverse ++ out := by
  induction points generalizing start out with
  | nil => rfl
  | cons p rest ih =>
      rw [List.foldl_cons, ih, totals, List.reverse_cons, List.append_assoc]
      rfl

theorem fst_totals (points : List (Instant × Float)) (start : Float) :
    (totals start points).map Prod.fst = points.map Prod.fst := by
  induction points generalizing start with
  | nil => rfl
  | cons p rest ih => rw [totals, List.map_cons, ih, List.map_cons]

theorem get?_totals {points : List (Instant × Float)} (h : Sorted.Ascending points) (start : Float)
    (t : Instant) : Sorted.get? t (totals start points) = if t ∈ points.map Prod.fst then
      some (((points.filter (fun p => decide (p.1 ≤ t))).map Prod.snd).foldl (· + ·) start) else none := by
  induction points generalizing start with
  | nil => rfl
  | cons p rest ih =>
      obtain ⟨u, v⟩ := p
      obtain ⟨before, hrest⟩ := List.pairwise_cons.1 h
      rw [totals, Sorted.get?_cons]
      by_cases same : u = t
      · subst same
        have none : rest.filter (fun p => decide (p.1 ≤ u)) = [] :=
          List.filter_eq_nil_iff.2 fun q hq le => of_decide_eq_true le (before q hq)
        rw [if_pos rfl, if_pos (by simp), List.filter_cons_of_pos (by simpa using Instant.le_refl u), none]
        rfl
      · rw [if_neg same, ih hrest]
        by_cases later : t ∈ rest.map Prod.fst
        · obtain ⟨q, hq, rfl⟩ := List.mem_map.1 later
          have le : u ≤ q.1 := Instant.le_of_lt (before q hq)
          have there : q.1 ∈ ((u, v) :: rest).map Prod.fst := List.mem_cons_of_mem u later
          rw [if_pos later, if_pos there, List.filter_cons_of_pos (by simpa using le)]
          rfl
        · have absent : t ∉ ((u, v) :: rest).map Prod.fst := by
            rw [List.map_cons, List.mem_cons]
            rintro (rfl | again)
            · exact same rfl
            · exact later again
          rw [if_neg later, if_neg absent]

/-- A running total has at each point the total of the values up to there, as long as that is a number. -/
theorem keeps_cumulative (s : Series) : Keeps (fun t =>
    if t ∈ s.index then some ((s.valuesUpTo t).foldl (· + ·) 0) else none) s.cumulative := by
  refine keeps_iff.2 fun t => ?_
  have ascending : Sorted.Ascending (totals 0 s.points) := by
    have keys : (s.points.map Prod.fst).Pairwise (· < ·) := List.pairwise_map.2 s.ascending
    rw [← fst_totals s.points 0] at keys
    exact List.pairwise_map.1 keys
  rw [cumulative, foldl_totals, List.append_nil, List.reverse_reverse, get?_ofPoints ascending,
    get?_totals s.ascending]
  rfl

end Totals

section Buckets

/-- Points that are put under the points of a grid below them: under each of these are its own. -/
theorem values_of_floored {points entries : List (Instant × Float)}
    (h : points.mapM (fun (t, v) => do return (← f.floor t, v)) = .ok entries) (b : Instant) :
    (entries.filter (fun p => decide (p.1 = b))).map Prod.snd =
      (points.filter (fun p => decide ((f.floor p.1).toOption = some b))).map Prod.snd := by
  induction points generalizing entries with
  | nil =>
      cases h
      rfl
  | cons p rest ih =>
      rw [List.mapM_cons] at h
      obtain ⟨entry, first, h⟩ := ok_of_bind h
      obtain ⟨others, later, h⟩ := ok_of_bind h
      cases h
      obtain ⟨below, floor, first⟩ := ok_of_bind first
      cases first
      have same : (f.floor p.1).toOption = some b ↔ below = b := by
        rw [floor]
        exact Option.some_inj
      by_cases here : below = b
      · rw [List.filter_cons_of_pos (by simpa using here),
          List.filter_cons_of_pos (by simpa [same] using here), List.map_cons, List.map_cons, ih later]
      · rw [List.filter_cons_of_neg (by simpa using here),
          List.filter_cons_of_neg (by simpa [same] using here), ih later]

/-- The groups of a series are its buckets that have points. -/
theorem get?_buckets {groups : List (Instant × List Float)} (h : s.buckets f = .ok groups) (b : Instant) :
    Sorted.get? b groups = if s.valuesIn f b = [] then none else some (s.valuesIn f b) := by
  obtain ⟨entries, floored, grouped⟩ := ok_of_bind h
  cases grouped
  have values : (entries.filter (fun p => decide (p.1 = b))).map Prod.snd = s.valuesIn f b :=
    values_of_floored floored b
  have there : b ∈ entries.map Prod.fst ↔ s.valuesIn f b ≠ [] := by
    rw [← values, ne_eq, List.map_eq_nil_iff, List.filter_eq_nil_iff]
    simp
  rw [Sorted.get?_group, values]
  by_cases empty : s.valuesIn f b = []
  · rw [if_pos empty, if_neg fun inside => there.1 inside empty]
  · rw [if_neg empty, if_pos (there.2 empty)]

/-- A resampled series has at each point of the grid the aggregate of its bucket, where that is a number. -/
theorem keeps_resample {r : Series} (h : s.resample f a = .ok r) : Keeps (fun b =>
    if s.valuesIn f b = [] then none else a.value? (s.valuesIn f b)) r := by
  obtain ⟨groups, grouped, made⟩ := ok_of_bind h
  cases made
  have ascending : Sorted.Ascending groups := by
    obtain ⟨entries, -, made⟩ := ok_of_bind grouped
    cases made
    exact Sorted.ascending_group entries
  refine keeps_iff.2 fun b => ?_
  show (ofPoints (groups.filterMap (fun p => (a.value? p.2).map (p.1, ·)))).get? b = _
  rw [get?_ofPoints_values ascending, get?_buckets grouped]
  split <;> rfl

end Buckets

section Trailing

theorem filter_le_getElem {points : List (Instant × Float)} (h : Sorted.Ascending points) {i : Nat}
    (hi : i < points.length) :
    points.filter (fun p => decide (p.1 ≤ points[i].1)) = points.take (i + 1) := by
  induction points generalizing i with
  | nil => cases hi
  | cons p rest ih =>
      obtain ⟨before, hrest⟩ := List.pairwise_cons.1 h
      cases i with
      | zero =>
          have none : rest.filter (fun q => decide (q.1 ≤ p.1)) = [] :=
            List.filter_eq_nil_iff.2 fun q hq le => of_decide_eq_true le (before q hq)
          rw [List.getElem_cons_zero, List.filter_cons_of_pos (by simpa using Instant.le_refl p.1), none,
            List.take_succ_cons, List.take_zero]
      | succ i =>
          have inside : i < rest.length := Nat.lt_of_succ_lt_succ hi
          have le : p.1 ≤ rest[i].1 := Instant.le_of_lt (before _ (List.getElem_mem inside))
          rw [List.getElem_cons_succ, List.filter_cons_of_pos (by simpa using le), ih hrest inside,
            List.take_succ_cons]

theorem valuesUpTo_getElem {i : Nat} (hi : i < s.index.length) :
    s.valuesUpTo s.index[i] = s.values.take (i + 1) := by
  have inside : i < s.points.length := by rwa [index, List.length_map] at hi
  have instant : s.index[i] = s.points[i].1 := List.getElem_map _
  rw [valuesUpTo, instant, filter_le_getElem s.ascending inside, values, List.map_take]

/-- The points that end a window are those with enough points up to them. -/
theorem mem_drop_index_iff {count : Nat} :
    t ∈ s.index.drop (count - 1) ↔ t ∈ s.index ∧ count ≤ (s.valuesUpTo t).length := by
  have length : ∀ {i} (hi : i < s.index.length), (s.valuesUpTo s.index[i]).length = i + 1 := by
    intro i hi
    rw [valuesUpTo_getElem hi, List.length_take, length_values]
    omega
  constructor
  · intro ht
    obtain ⟨i, hi, rfl⟩ := List.getElem_of_mem ht
    rw [List.length_drop] at hi
    rw [List.getElem_drop, length]
    exact ⟨List.getElem_mem _, by omega⟩
  · rintro ⟨ht, enough⟩
    obtain ⟨i, hi, rfl⟩ := List.getElem_of_mem ht
    rw [length hi] at enough
    exact List.mem_drop_iff_getElem.2 ⟨i - (count - 1), by omega, by congr 1; omega⟩

/-- A window of no points is empty at every point. -/
theorem mapRuns_zero {α β : Type} (f : List α → β) (xs : List α) :
    mapRuns 0 f xs = xs.map (fun _ => f []) := by
  induction xs with
  | nil => rfl
  | cons x xs ih =>
      rw [List.map_cons, ← ih]
      rfl

/-- Behind the first points stands at each one the window that ends there. -/
theorem zip_mapRuns {β : Type} (s : Series) (count : Nat) (f : List Float → β) :
    (s.index.drop (count - 1)).zip (mapRuns count f s.values) =
      (s.index.drop (count - 1)).map (fun t => (t, f (lastly count (s.valuesUpTo t)))) := by
  rcases Nat.eq_zero_or_pos count with rfl | positive
  · rw [mapRuns_zero]
    apply List.ext_getElem
    · simp [length_values]
    · intro i hi hi'
      simp [lastly]
  · rw [mapRuns_eq positive]
    apply List.ext_getElem
    · simp only [List.length_zip, List.length_drop, List.length_map, List.length_range, length_values]
      omega
    · intro i hi hi'
      rw [List.length_map, List.length_drop] at hi'
      have inside : count - 1 + i < s.index.length := by omega
      have length : (s.values.take (count - 1 + i + 1)).length = count - 1 + i + 1 := by
        rw [List.length_take, length_values]
        omega
      simp only [List.getElem_zip, List.getElem_drop, List.getElem_map, List.getElem_range,
        valuesUpTo_getElem inside, lastly, length]
      rw [List.drop_take, show count - 1 + i + 1 - count = i by omega,
        show count - 1 + i + 1 - i = count by omega]

/-- A rolling aggregate has at each point the aggregate of as many points up to there as the window wants, where
    there are so many and that is a number. -/
theorem keeps_rolling (s : Series) (count : Nat) (a : Aggregate) : Keeps (fun t =>
    if t ∈ s.index ∧ count ≤ (s.valuesUpTo t).length then
      a.value? (lastly count (s.valuesUpTo t)) else none) (s.rolling count a) := by
  refine keeps_iff.2 fun t => ?_
  rw [rolling, zip_mapRuns, List.filterMap_map]
  show (ofPoints ((s.index.drop (count - 1)).filterMap fun t =>
    (a.value? (lastly count (s.valuesUpTo t))).map (t, ·))).get? t = _
  rw [get?_ofPoints_latest, latest_filterMap (g := fun t => a.value? (lastly count (s.valuesUpTo t)))]
  simp only [mem_drop_index_iff]

end Trailing

end Series

end SeriesLang
