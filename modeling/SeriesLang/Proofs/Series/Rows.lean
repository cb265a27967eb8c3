import SeriesLang.Proofs.Series.Fill
import SeriesLang.Proofs.Series.Points
import SeriesLang.Proofs.Time.Index
import SeriesLang.Series.Combine

/-! # Rows of several series

Laid out on the union of their indexes, series have at every instant the row of their values there. As long
as only constants are filled in, what is made of a row depends on the values of this one instant.
-/

namespace SeriesLang

/-- The options fill a missing cell by nothing that stands in another one. -/
def SeriesOptions.Pointwise (options : SeriesOptions) : Prop :=
  options.limit = none ∧ ∀ policy ∈ options.fill, policy.isPointwise = true

namespace Fill

/-- What becomes of one cell by itself. -/
def cell (options : SeriesOptions) (value : Option Float) : Option Float :=
  match options.fill with
  | some (.value v) => value.or (some v)
  | _ => value

theorem spend_unlimited (v : Float) (cells : List (Option Float)) :
    spend v none cells = cells.map (fun value => value.or (some v)) := by
  induction cells with
  | nil => rfl
  | cons value rest ih => cases value <;> simp [spend, ih]

/-- A column is filled cell by cell where only constants are filled in. -/
theorem column_pointwise {options : SeriesOptions} (h : options.Pointwise)
    (cells : List (Option Float)) : column options cells = cells.map (cell options) := by
  obtain ⟨unlimited, pointwise⟩ := h
  unfold column cell
  cases hfill : options.fill with
  | none => exact (List.map_id cells).symm
  | some policy =>
      cases policy with
      | value v =>
          show constant v options.limit cells = _
          rw [unlimited, constant_eq, spend_unlimited]
      | methods list =>
          have none := pointwise (.methods list) hfill
          cases none

end Fill

namespace Combine

theorem foldl_cells {index : List Instant} {points : List (Instant × Float)}
    (hindex : Index.Ascending index) (hpoints : Sorted.Ascending points)
    (covers : ∀ p ∈ points, p.1 ∈ index) (acc : List (Option Float)) :
    (index.foldl cellStep (points, acc)).2 =
      (index.map (fun t => Sorted.get? t points)).reverse ++ acc := by
  induction index generalizing points acc with
  | nil => rfl
  | cons t index ih =>
      obtain ⟨after, rest⟩ := List.pairwise_cons.1 hindex
      rw [List.foldl_cons, List.map_cons, List.reverse_cons, List.append_assoc]
      cases points with
      | nil => exact ih rest .nil (by simp) _
      | cons p points =>
          obtain ⟨u, v⟩ := p
          obtain ⟨before, hrest⟩ := List.pairwise_cons.1 hpoints
          by_cases heq : t = u
          · subst heq
            have later : ∀ p ∈ points, p.1 ∈ index := by
              intro p hp
              rcases List.mem_cons.1 (covers p (List.mem_cons_of_mem _ hp)) with same | hmem
              · exact absurd same.symm (Instant.ne_of_lt (before p hp))
              · exact hmem
            have same : index.map (fun other => Sorted.get? other ((t, v) :: points)) =
                index.map (fun other => Sorted.get? other points) := by
              refine List.map_congr_left (fun other hother => ?_)
              rw [Sorted.get?_cons, if_neg (Instant.ne_of_lt (after other hother))]
            rw [same, Sorted.get?_cons, if_pos rfl]
            simp only [cellStep, if_true]
            exact ih rest hrest later _
          · have later : ∀ p ∈ (u, v) :: points, p.1 ∈ index ∧ t < p.1 := by
              have first : u ∈ index := by
                rcases List.mem_cons.1 (covers _ List.mem_cons_self) with same | hmem
                · exact absurd same.symm heq
                · exact hmem
              intro p hp
              rcases List.mem_cons.1 hp with rfl | hp
              · exact ⟨first, after u first⟩
              · have behind := Instant.lt_trans (after u first) (before p hp)
                rcases List.mem_cons.1 (covers p (List.mem_cons_of_mem _ hp)) with same | hmem
                · exact absurd same.symm (Instant.ne_of_lt behind)
                · exact ⟨hmem, behind⟩
            have absent : Sorted.get? t ((u, v) :: points) = none := by
              rw [Sorted.get?_eq_none_iff]
              intro p hp same
              exact Instant.ne_of_lt (later p hp).2 same.symm
            rw [absent]
            simp only [cellStep, if_neg heq]
            exact ih rest hpoints (fun p hp => (later p hp).1) _

/-- The cells of a series are its values at the instants of the index. -/
theorem cellsOn_eq {index : List Instant} {s : Series} (hindex : Index.Ascending index)
    (covers : ∀ t ∈ s.index, t ∈ index) : cellsOn index s.points = index.map s.get? := by
  rw [cellsOn, foldl_cells hindex s.ascending (fun p hp => covers p.1 (List.mem_map.2 ⟨p, hp, rfl⟩)),
    List.append_nil, List.reverse_reverse]
  rfl

theorem foldl_rows (index : List Instant) (columns : List (Instant → Option Float))
    (acc : List (Instant × List (Option Float))) :
    (index.foldl rowStep (columns.map (fun column => index.map column), acc)).2 =
      (index.map (fun t => (t, columns.map (fun column => column t)))).reverse ++ acc := by
  induction index generalizing acc with
  | nil => rfl
  | cons t index ih =>
      rw [List.foldl_cons, List.map_cons, List.reverse_cons, List.append_assoc]
      simp only [rowStep, List.map_map, Function.comp_def, List.map_cons, List.tail_cons,
        List.head?_cons, Option.join_some]
      exact ih _

/-- Columns that are given instant by instant make rows that are. -/
theorem rowsOf_eq (index : List Instant) (columns : List (Instant → Option Float)) :
    rowsOf index (columns.map (fun column => index.map column)) =
      index.map (fun t => (t, columns.map (fun column => column t))) := by
  rw [rowsOf, foldl_rows, List.append_nil, List.reverse_reverse]

theorem map_fst_rowsOf (index : List Instant) (columns : List (List (Option Float))) :
    (rowsOf index columns).map Prod.fst = index := by
  have general : ∀ (columns : List (List (Option Float))) (acc : List (Instant × List (Option Float))),
      (index.foldl rowStep (columns, acc)).2.map Prod.fst = index.reverse ++ acc.map Prod.fst := by
    induction index with
    | nil => exact fun _ _ => rfl
    | cons t index ih =>
        intro columns acc
        rw [List.foldl_cons, ih, List.reverse_cons, List.append_assoc]
        rfl
  rw [rowsOf, List.map_reverse, general, List.map_nil, List.append_nil, List.reverse_reverse]

theorem mem_indexOf {t : Instant} {inputs : List Series} :
    t ∈ indexOf inputs ↔ ∃ s ∈ inputs, (s.get? t).isSome := by
  rw [indexOf, Index.mem_union]
  constructor
  · rintro ⟨index, hindex, ht⟩
    obtain ⟨s, hs, rfl⟩ := List.mem_map.1 hindex
    exact ⟨s, hs, Series.get?_isSome_iff.2 ht⟩
  · rintro ⟨s, hs, ht⟩
    exact ⟨s.index, List.mem_map.2 ⟨s, hs, rfl⟩, Series.get?_isSome_iff.1 ht⟩

theorem ascending_indexOf (inputs : List Series) : Index.Ascending (indexOf inputs) := by
  refine Index.ascending_union (fun index hindex => ?_)
  obtain ⟨s, -, rfl⟩ := List.mem_map.1 hindex
  exact List.pairwise_map.2 s.ascending

theorem rows_eq (inputs : List Series) :
    rows inputs = (indexOf inputs).map (fun t => (t, inputs.map (fun s => s.get? t))) := by
  have columns : inputs.map (fun s => cellsOn (indexOf inputs) s.points) =
      (inputs.map Series.get?).map (fun column => (indexOf inputs).map column) := by
    rw [List.map_map]
    refine List.map_congr_left (fun s hs => cellsOn_eq (ascending_indexOf inputs) (fun t ht => ?_))
    exact mem_indexOf.2 ⟨s, hs, Series.get?_isSome_iff.2 ht⟩
  rw [rows, columns, rowsOf_eq]
  simp only [List.map_map, Function.comp_def]

/-- The cell of a series at an instant of an index, in its column along the index when that has been filled. -/
def filledCell (index : List Instant) (t : Instant) (s : Series) : Option Float :=
  (Fill.column s.options (index.map s.get?))[index.idxOf t]?.join

theorem column_eq_map {index : List Instant} (distinct : index.Nodup) {column : List (Option Float)}
    (same : column.length = index.length) : column = index.map (fun t => column[index.idxOf t]?.join) := by
  apply List.ext_getElem
  · rw [List.length_map, same]
  · intro i hi hi'
    rw [List.getElem_map, distinct.idxOf_getElem, List.getElem?_eq_getElem hi]
    rfl

theorem filledRows_eq (inputs : List Series) : filledRows inputs =
    (indexOf inputs).map (fun t => (t, inputs.map (filledCell (indexOf inputs) t))) := by
  have distinct : (indexOf inputs).Nodup := (ascending_indexOf inputs).imp Instant.ne_of_lt
  have columns : inputs.map (fun s => Fill.column s.options (cellsOn (indexOf inputs) s.points)) =
      (inputs.map (fun s t => filledCell (indexOf inputs) t s)).map
        (fun column => (indexOf inputs).map column) := by
    rw [List.map_map]
    refine List.map_congr_left (fun s hs => ?_)
    rw [cellsOn_eq (ascending_indexOf inputs)
      (fun t ht => mem_indexOf.2 ⟨s, hs, Series.get?_isSome_iff.2 ht⟩)]
    apply column_eq_map distinct
    rw [Fill.length_column, List.length_map]
  rw [filledRows, columns, rowsOf_eq]
  simp only [List.map_map, Function.comp_def]

/-- Where only constants are filled in, a filled cell knows nothing of the other instants. -/
theorem filledCell_pointwise {index : List Instant} {t : Instant} (ht : t ∈ index) {s : Series}
    (h : s.options.Pointwise) : filledCell index t s = Fill.cell s.options (s.get? t) := by
  have place : index.idxOf t < index.length := List.idxOf_lt_length_of_mem ht
  rw [filledCell, Fill.column_pointwise h, List.map_map, List.getElem?_map,
    List.getElem?_eq_getElem place, List.getElem_idxOf place]
  rfl

/-- The value that is made of the row at an instant. -/
theorem get?_ofRows {index : List Instant} (hindex : Index.Ascending index)
    (row : Instant → List (Option Float))
    {pick : Instant × List (Option Float) → Option (Instant × Float)}
    (keys : ∀ p q, pick p = some q → q.1 = p.1) (t : Instant) :
    (Series.ofPoints ((index.map (fun t => (t, row t))).filterMap pick)).get? t =
      if t ∈ index then ((pick (t, row t)).map Prod.snd).bind Series.defined? else none := by
  have hrows : Sorted.Ascending (index.map (fun t => (t, row t))) := List.pairwise_map.2 hindex
  rw [Series.get?_ofPoints_filterMap hrows keys]
  have found : Sorted.get? t (index.map (fun t => (t, row t))) =
      if t ∈ index then some (row t) else none := by
    split
    · rename_i hmem
      exact Sorted.get?_of_mem hrows (List.mem_map.2 ⟨t, hmem, rfl⟩)
    · rename_i hmem
      rw [Sorted.get?_eq_none_iff]
      intro p hp heq
      obtain ⟨u, hu, rfl⟩ := List.mem_map.1 hp
      exact hmem (heq ▸ hu)
  rw [found]
  split <;> rfl

theorem get?_strict (f : List Float → Float) (inputs : List Series) (t : Instant) :
    (strict f inputs).get? t = if t ∈ indexOf inputs then
      (((inputs.map (filledCell (indexOf inputs) t)).mapM id).map f).bind Series.defined?
    else none := by
  rw [strict, filledRows_eq, get?_ofRows (ascending_indexOf inputs)]
  · simp only [Option.map_map]
    rfl
  · intro p q hpick
    obtain ⟨row, -, rfl⟩ := Option.map_eq_some_iff.1 hpick
    rfl

theorem get?_strict_pointwise (f : List Float → Float) {inputs : List Series}
    (h : ∀ s ∈ inputs, s.options.Pointwise) (t : Instant) :
    (strict f inputs).get? t = if t ∈ indexOf inputs then
      (((inputs.map (fun s => Fill.cell s.options (s.get? t))).mapM id).map f).bind Series.defined?
    else none := by
  rw [get?_strict]
  split
  · rename_i ht
    rw [List.map_congr_left fun s hs => filledCell_pointwise ht (h s hs)]
  · rfl

theorem get?_patch (inputs : List Series) (t : Instant) :
    (patch inputs).get? t = (inputs.map (fun s => s.get? t)).findSome? id := by
  have present : ∀ v, (inputs.map (fun s => s.get? t)).findSome? id = some v →
      t ∈ indexOf inputs ∧ Series.defined? v = some v := by
    intro v found
    obtain ⟨cell, hcell, value⟩ := List.exists_of_findSome?_eq_some found
    obtain ⟨s, hs, rfl⟩ := List.mem_map.1 hcell
    have value : s.get? t = some v := value
    have defined := Series.defined?_of_mem (p := (t, v)) (Series.get?_eq_some_iff.1 value)
    exact ⟨mem_indexOf.2 ⟨s, hs, Option.isSome_of_eq_some value⟩, defined⟩
  rw [patch, rows_eq, get?_ofRows (ascending_indexOf inputs)]
  · simp only [Option.map_map]
    cases found : (inputs.map (fun s => s.get? t)).findSome? id with
    | none => exact ite_self none
    | some v =>
        obtain ⟨covered, defined⟩ := present v found
        rw [if_pos covered]
        exact defined
  · intro p q hpick
    obtain ⟨v, -, rfl⟩ := Option.map_eq_some_iff.1 hpick
    rfl

/-- What is made of a row and the weights of its series. -/
def reduceRow (f : List (Float × Float) → Option Float) (skipMissing : Bool) (weights : List Float)
    (row : List (Option Float)) : Option Float :=
  if !skipMissing && row.any Option.isNone then none
  else
    let cells := (row.zip weights).filterMap (fun (cell, w) => cell.map (·, w))
    if cells.isEmpty then none else f cells

theorem get?_lenient (f : List (Float × Float) → Option Float) (skipMissing : Bool)
    (inputs : List Series) (t : Instant) :
    (lenient f skipMissing inputs).get? t = if t ∈ indexOf inputs then
      (reduceRow f skipMissing (inputs.map weight) (inputs.map (fun s => s.get? t))).bind
        Series.defined?
    else none := by
  rw [lenient, rows_eq, get?_ofRows (ascending_indexOf inputs)]
  · split
    · refine congrArg (Option.bind · Series.defined?) ?_
      simp only [reduceRow]
      split
      · rfl
      · split
        · rfl
        · rw [Option.map_map]
          cases f _ <;> rfl
    · rfl
  · intro p q hpick
    simp only at hpick
    split at hpick
    · cases hpick
    · split at hpick
      · cases hpick
      · obtain ⟨v, -, rfl⟩ := Option.map_eq_some_iff.1 hpick
        rfl

/-- The values of a row in which no cell is missing. -/
theorem mapM_id_eq_some_iff {row : List (Option Float)} {values : List Float} :
    row.mapM id = some values ↔ row = values.map some := by
  induction row generalizing values with
  | nil => cases values <;> simp
  | cons cell rest ih =>
      rw [List.mapM_cons]
      cases cell with
      | none => cases values <;> simp
      | some first =>
          cases values with
          | nil => cases rest.mapM id <;> simp
          | cons value others =>
              rw [List.map_cons, List.cons.injEq, ← ih]
              cases rest.mapM id <;> simp

/-- The values of a row of series that are there, each with the weight of its series. -/
def weighed (t : Instant) (inputs : List Series) : List (Float × Float) :=
  inputs.filterMap (fun s => (s.get? t).map (·, weight s))

theorem weighed_ne_nil_iff {t : Instant} {inputs : List Series} :
    weighed t inputs ≠ [] ↔ t ∈ indexOf inputs := by
  rw [mem_indexOf, ne_eq, weighed, List.filterMap_eq_nil_iff]
  simp [Option.isSome_iff_ne_none]

theorem reduceRow_eq_some_iff {f : List (Float × Float) → Option Float} {skipMissing : Bool}
    {inputs : List Series} {t : Instant} {v : Float} :
    reduceRow f skipMissing (inputs.map weight) (inputs.map (fun s => s.get? t)) = some v ↔
      t ∈ indexOf inputs ∧ (skipMissing = true ∨ ∀ s ∈ inputs, (s.get? t).isSome) ∧
        f (weighed t inputs) = some v := by
  have cells : ((inputs.map (fun s => s.get? t)).zip (inputs.map weight)).filterMap
      (fun (cell, w) => cell.map (·, w)) = weighed t inputs := by
    rw [List.zip_map', List.filterMap_map]
    rfl
  have whole : (!skipMissing && (inputs.map (fun s => s.get? t)).any Option.isNone) = false ↔
      skipMissing = true ∨ ∀ s ∈ inputs, (s.get? t).isSome := by
    cases skipMissing <;> simp [Option.isSome_iff_ne_none]
  rw [reduceRow, ← whole, ← weighed_ne_nil_iff]
  simp only [cells]
  cases !skipMissing && (inputs.map (fun s => s.get? t)).any Option.isNone with
  | true => simp
  | false => cases weighed t inputs <;> simp

theorem get?_patch_append (as bs : List Series) (t : Instant) :
    (patch (as ++ bs)).get? t = ((patch as).get? t).or ((patch bs).get? t) := by
  simp only [get?_patch, List.map_append, List.findSome?_append]

/-- A combination has at an instant what its row there decides, and nothing where no input has a value. A sum and
    its like take the cells after each column was filled along the whole index by the options of its own series;
    the others take the values as they are, a mean and its like each with its own weight. -/
theorem decided_by_rows (inputs : List Series) :
    (Index.Ascending (indexOf inputs) ∧ ∀ t, t ∈ indexOf inputs ↔ ∃ s ∈ inputs, t ∈ s.index) ∧
    (∀ f t v, (strict f inputs).get? t = some v ↔ t ∈ indexOf inputs ∧ ∃ row,
      inputs.map (filledCell (indexOf inputs) t) = row.map some ∧ f row = v ∧ v.isNaN = false) ∧
    (∀ f skipMissing t v, (lenient f skipMissing inputs).get? t = some v ↔ t ∈ indexOf inputs ∧
      (skipMissing = true ∨ ∀ s ∈ inputs, t ∈ s.index) ∧ f (weighed t inputs) = some v ∧
        v.isNaN = false) ∧
    (∀ t, (patch inputs).get? t = inputs.findSome? (fun s => s.get? t)) ∧
    ∀ others, patch (inputs ++ [patch others]) = patch (inputs ++ others) := by
  refine ⟨⟨ascending_indexOf inputs, fun t => ?_⟩, fun f t v => ?_, fun f skipMissing t v => ?_,
    fun t => ?_, fun others => ?_⟩
  · rw [mem_indexOf]
    simp only [Series.get?_isSome_iff]
  · have row : ((inputs.map (filledCell (indexOf inputs) t)).mapM id).map f = some v ↔
        ∃ row, inputs.map (filledCell (indexOf inputs) t) = row.map some ∧ f row = v := by
      rw [Option.map_eq_some_iff]
      simp only [mapM_id_eq_some_iff]
    rw [get?_strict, Option.ite_none_right_eq_some, Option.bind_eq_some_iff]
    refine and_congr_right fun _ => ⟨?_, ?_⟩
    · rintro ⟨x, made, value⟩
      obtain ⟨rfl, number⟩ := Series.defined?_eq_some_iff.1 value
      obtain ⟨cells, same, result⟩ := Option.map_eq_some_iff.1 made
      exact ⟨cells, mapM_id_eq_some_iff.1 same, result, number⟩
    · rintro ⟨cells, same, result, number⟩
      exact ⟨v, row.2 ⟨cells, same, result⟩, Series.defined?_eq_some_iff.2 ⟨rfl, number⟩⟩
  · rw [get?_lenient, Option.ite_none_right_eq_some, Option.bind_eq_some_iff]
    simp only [Series.defined?_eq_some_iff, reduceRow_eq_some_iff, Series.get?_isSome_iff]
    constructor
    · rintro ⟨covered, _, ⟨-, whole, result⟩, rfl, number⟩
      exact ⟨covered, whole, result, number⟩
    · rintro ⟨covered, whole, result, number⟩
      exact ⟨covered, v, ⟨covered, whole, result⟩, rfl, number⟩
  · rw [get?_patch, List.findSome?_map]
    rfl
  · refine Series.ext_get? ((Series.options_ofPoints _).trans (Series.options_ofPoints _).symm) fun t => ?_
    have single : (patch [patch others]).get? t = (patch others).get? t := by
      rw [get?_patch [patch others], List.map_singleton]
      cases (patch others).get? t <;> rfl
    rw [get?_patch_append, get?_patch_append, single]

end Combine

end SeriesLang
