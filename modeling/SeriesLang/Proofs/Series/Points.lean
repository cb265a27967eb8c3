import SeriesLang.Proofs.Sorted
import SeriesLang.Proofs.Time.Moves
import SeriesLang.Series.Basic

/-! # Points of a series

A series is known once its value at every instant is. Of every operation it is said which points it leaves
and which value it leaves at an instant.
-/

namespace SeriesLang

namespace Series

variable {s : Series} {t : Instant}

/-- A number, unless it is NaN. -/
def defined? (v : Float) : Option Float :=
  if v.isNaN then none else some v

theorem defined?_eq_some_iff {x v : Float} : defined? x = some v ↔ x = v ∧ v.isNaN = false := by
  unfold defined?
  cases number : x.isNaN with
  | true =>
      simp only [if_true, reduceCtorEq, false_iff]
      rintro ⟨rfl, other⟩
      cases number.symm.trans other
  | false =>
      simp only [Bool.false_eq_true, if_false, Option.some.injEq]
      exact ⟨fun same => ⟨same, same ▸ number⟩, And.left⟩

theorem get?_eq_some_iff {v : Float} : s.get? t = some v ↔ (t, v) ∈ s.points :=
  Sorted.get?_eq_some_iff s.ascending

theorem get?_isSome_iff : (s.get? t).isSome ↔ t ∈ s.index := by
  rw [get?, ← Sorted.contains_eq_isSome]
  exact Sorted.contains_iff_mem

/-- Series with the same values have the same points. -/
theorem points_ext {a b : Series} (h : ∀ t, a.get? t = b.get? t) : a.points = b.points :=
  Sorted.Ascending.ext a.ascending b.ascending h

theorem ext_get? {a b : Series} (options : a.options = b.options) (h : ∀ t, a.get? t = b.get? t) :
    a = b := by
  have points := points_ext h
  cases a
  cases b
  simp only [mk.injEq]
  exact ⟨points, options⟩

theorem defined?_of_mem {p : Instant × Float} (h : p ∈ s.points) : defined? p.2 = some p.2 := by
  rw [defined?, s.defined p h, if_neg Bool.false_ne_true]

theorem get?_retain (s : Series) (keep : Instant → Float → Bool) (t : Instant) :
    (s.retain keep).get? t = (s.get? t).filter (keep t) := by
  exact Sorted.get?_pick s.ascending t

theorem get?_restrict (s : Series) (w : Window) (t : Instant) :
    (s.restrict w).get? t = if w.contains t then s.get? t else none := by
  rw [restrict, get?_retain]
  cases s.get? t with
  | none => rw [Option.filter_none, ite_self]
  | some v => rw [Option.filter_some]

theorem get?_mapValues (s : Series) (f : Float → Float) (t : Instant) :
    (s.mapValues f).get? t = (s.get? t).bind (fun v => defined? (f v)) := by
  show Sorted.get? t (s.points.filterMap (mapPoint? f)) = _
  rw [Sorted.get?_filterMap s.ascending, get?]
  · congr 1
    funext v
    simp only [mapPoint?, defined?]
    split <;> rfl
  · intro p q h
    simp only [mapPoint?, Option.ite_none_left_eq_some, Option.some.injEq] at h
    rw [← h.2]

theorem get?_insert (s : Series) (u : Instant) (v : Float) (t : Instant) :
    (s.insert u v).get? t = if u = t then defined? v else s.get? t := by
  unfold insert defined?
  split
  · rw [get?, Sorted.get?_erase]
    by_cases heq : u = t
    · rw [if_pos heq, if_pos heq.symm]
    · rw [if_neg heq, if_neg (fun h => heq h.symm)]
      rfl
  · rw [get?, Sorted.get?_put]
    rfl

/-- Of several values at an instant the last one. -/
def latest (t : Instant) (points : List (Instant × Float)) : Option Float :=
  ((points.filter (fun p => decide (p.1 = t))).getLast?).map Prod.snd

theorem latest_cons (u : Instant) (v : Float) (rest : List (Instant × Float)) :
    latest t ((u, v) :: rest) = (latest t rest).or (if u = t then some v else none) := by
  unfold latest
  by_cases same : u = t
  · rw [List.filter_cons_of_pos (by simpa using same), List.getLast?_cons, if_pos same]
    cases (rest.filter (fun p => decide (p.1 = t))).getLast? <;> rfl
  · rw [List.filter_cons_of_neg (by simpa using same), if_neg same, Option.or_none]

theorem latest_of_ascending {points : List (Instant × Float)} (h : Sorted.Ascending points) :
    latest t points = Sorted.get? t points := by
  induction points with
  | nil => rfl
  | cons p rest ih =>
      obtain ⟨u, v⟩ := p
      obtain ⟨before, hrest⟩ := List.pairwise_cons.1 h
      rw [latest_cons, ih hrest, Sorted.get?_cons]
      by_cases same : u = t
      · have absent : Sorted.get? t rest = none :=
          Sorted.get?_of_lt fun q hq => same ▸ before q hq
        simp only [absent, Option.none_or, if_pos same]
      · rw [if_neg same, if_neg same, Option.or_none]

/-- Of points that are set one after the other the last one at an instant counts; it removes what was there if
    it is NaN. -/
theorem get?_foldl_insert (s : Series) (points : List (Instant × Float)) (t : Instant) :
    (points.foldl (fun s p => s.insert p.1 p.2) s).get? t =
      match latest t points with
      | some v => defined? v
      | none => s.get? t := by
  induction points generalizing s with
  | nil => rfl
  | cons p rest ih =>
      obtain ⟨u, v⟩ := p
      rw [List.foldl_cons, ih, latest_cons]
      cases latest t rest with
      | some w => rfl
      | none =>
          rw [Option.none_or]
          dsimp only
          rw [get?_insert]
          split <;> rfl

/-- Points that ascend are set over those that were there; NaN removes them. -/
theorem get?_insertAll (s : Series) {points : List (Instant × Float)} (h : Sorted.Ascending points)
    (t : Instant) : (s.insertAll points).get? t =
      match Sorted.get? t points with
      | some v => defined? v
      | none => s.get? t := by
  unfold insertAll
  split
  · rename_i ascends
    have ascending := ascending_of_ascends ascends
    have kept : Sorted.get? t (points.filter (fun p => !p.2.isNaN)) =
        (Sorted.get? t points).bind defined? := by
      rw [Sorted.get?_pick h]
      cases Sorted.get? t points with
      | none => rfl
      | some v =>
          rw [Option.filter_some, Option.bind_some, defined?]
          cases v.isNaN <;> rfl
    show Sorted.get? t (s.points ++ points.filter (fun p => !p.2.isNaN)) = _
    rw [Sorted.get?_append, kept]
    cases hpoints : Sorted.get? t points with
    | none => rw [Option.bind_none, Option.or_none, get?]
    | some v =>
        -- The series ends before the points begin.
        have absent : Sorted.get? t s.points = none := by
          rw [Sorted.get?_eq_none_iff]
          intro p hp heq
          have hlt := (List.pairwise_append.1 ascending).2.2 p hp _ (Sorted.mem_of_get? hpoints)
          exact Instant.ne_of_lt hlt heq
        rw [absent, Option.none_or, Option.bind_some]
  · rw [get?_foldl_insert, latest_of_ascending h]

theorem get?_ofPoints {points : List (Instant × Float)} (h : Sorted.Ascending points) (t : Instant) :
    (ofPoints points).get? t = (Sorted.get? t points).bind defined? := by
  rw [ofPoints, get?_insertAll _ h]
  cases Sorted.get? t points <;> rfl

/-- A series that is made of ascending entries, each of which may give a point at its own instant. -/
theorem get?_ofPoints_filterMap {α : Type} {f : Instant × α → Option (Instant × Float)}
    {entries : List (Instant × α)} (h : Sorted.Ascending entries)
    (keys : ∀ p q, f p = some q → q.1 = p.1) (t : Instant) :
    (ofPoints (entries.filterMap f)).get? t =
      ((Sorted.get? t entries).bind fun value => (f (t, value)).map Prod.snd).bind defined? := by
  rw [get?_ofPoints (Sorted.ascending_filterMap h keys), Sorted.get?_filterMap h keys]

/-- A series that is made of ascending entries by what each of them gives. -/
theorem get?_ofPoints_values {α : Type} {value? : α → Option Float} {entries : List (Instant × α)}
    (h : Sorted.Ascending entries) (t : Instant) :
    (ofPoints (entries.filterMap fun p => (value? p.2).map (p.1, ·))).get? t =
      ((Sorted.get? t entries).bind value?).bind defined? := by
  rw [get?_ofPoints_filterMap h]
  · simp only [Option.map_map, Function.comp_def, Option.map_id']
  · intro p q hq
    obtain ⟨v, -, rfl⟩ := Option.map_eq_some_iff.1 hq
    rfl

/-- A series that is made of points in any order has at every instant the last value there, unless that is
    NaN. -/
theorem get?_ofPoints_latest (points : List (Instant × Float)) (t : Instant) :
    (ofPoints points).get? t = (latest t points).bind defined? := by
  by_cases ordered : ascends points = true
  · have ascending := ascending_of_ascends ordered
    rw [get?_ofPoints ascending, latest_of_ascending ascending]
  · have unordered : ¬ ascends (empty.points ++ points) = true := ordered
    rw [ofPoints, insertAll, dif_neg unordered, get?_foldl_insert]
    cases latest t points <;> rfl

theorem mem_insert {p : Instant × Float} {u : Instant} {v : Float} (h : p ∈ (s.insert u v).points) :
    p = (u, v) ∨ p ∈ s.points := by
  unfold insert at h
  split at h
  · exact .inr (List.mem_filter.1 h).1
  · exact Sorted.mem_put h

theorem mem_foldl_insert {p : Instant × Float} {points : List (Instant × Float)}
    (h : p ∈ (points.foldl (fun s p => s.insert p.1 p.2) s).points) : p ∈ s.points ∨ p ∈ points := by
  induction points generalizing s with
  | nil => exact .inl h
  | cons q rest ih =>
      rcases ih h with h | h
      · rcases mem_insert h with rfl | h
        · exact .inr List.mem_cons_self
        · exact .inl h
      · exact .inr (List.mem_cons_of_mem _ h)

theorem mem_insertAll {p : Instant × Float} {points : List (Instant × Float)}
    (h : p ∈ (s.insertAll points).points) : p ∈ s.points ∨ p ∈ points := by
  unfold insertAll at h
  split at h
  · rcases List.mem_append.1 h with h | h
    · exact .inl h
    · exact .inr (List.mem_filter.1 h).1
  · exact mem_foldl_insert h

/-- The points of a series come from those that it was made of. -/
theorem mem_ofPoints {p : Instant × Float} {points : List (Instant × Float)}
    (h : p ∈ (ofPoints points).points) : p ∈ points := by
  rcases mem_insertAll h with h | h
  · cases h
  · exact h

theorem options_insert (s : Series) (t : Instant) (v : Float) : (s.insert t v).options = s.options := by
  unfold insert
  split <;> rfl

theorem options_insertAll (s : Series) (points : List (Instant × Float)) :
    (s.insertAll points).options = s.options := by
  unfold insertAll
  split
  · rfl
  · rename_i unordered
    clear unordered
    induction points generalizing s with
    | nil => rfl
    | cons p rest ih => rw [List.foldl_cons, ih, options_insert]

theorem options_ofPoints (points : List (Instant × Float)) : (ofPoints points).options = {} :=
  options_insertAll empty points

end Series

end SeriesLang
