import Mathlib.Data.List.Basic
import SeriesLang.Proofs.Series.Points
import SeriesLang.Proofs.Time.Index
import SeriesLang.Store.Basic

/-! # Reading revisions

Between two insertion dates nothing changes: a series is the same at two revisions that have the same
insertion dates before them, and so is its value at one instant.
-/

namespace SeriesLang

theorem Window.le_of_contains {w : Window} {t u : Instant} (bounded : w.upper = some u)
    (h : w.contains t = true) : t ≤ u := by
  simp only [contains, bounded, Option.all_some, Bool.and_eq_true, decide_eq_true_eq] at h
  exact h.2

namespace History

variable {h : History} {r r' : Instant}

theorem valueAt?_congr (same : ∀ v ∈ h.versions, v.1 ≤ r ↔ v.1 ≤ r') :
    h.valueAt? (some r) = h.valueAt? (some r') := by
  have filtered : h.versions.filter (fun v => decide (v.1 ≤ r)) =
      h.versions.filter (fun v => decide (v.1 ≤ r')) :=
    List.filter_congr (fun v hv => by rw [decide_eq_decide, same v hv])
  simp only [valueAt?, versionAt?, filtered]

theorem valueAt?_early (early : ∀ v ∈ h.versions, ¬ v.1 ≤ r) : h.valueAt? (some r) = none := by
  have filtered : h.versions.filter (fun v => decide (v.1 ≤ r)) = [] :=
    List.filter_eq_nil_iff.2 (fun v hv => by simp only [early v hv, decide_false, Bool.false_eq_true, not_false_eq_true])
  simp only [valueAt?, versionAt?, filtered]
  rfl

theorem mem_record {inserted : Instant} {value : Option Float} {v : Instant × Option Float}
    (hv : v ∈ (h.record inserted value).versions) : v.1 = inserted ∨ v ∈ h.versions := by
  rcases Sorted.mem_put hv with rfl | hv
  · exact .inl rfl
  · exact .inr hv

end History

namespace StoredSeries

/-- Versions are only recorded at insertion dates, which ascend. -/
structure Dated (s : StoredSeries) : Prop where
  ascending : Index.Ascending s.insertionDates
  versions : ∀ p ∈ s.points, ∀ v ∈ p.2.versions, v.1 ∈ s.insertionDates

theorem Dated.empty : Dated {} :=
  ⟨.nil, by simp⟩

theorem Dated.recordPoint {s : StoredSeries} (h : s.Dated) {inserted : Instant}
    (known : inserted ∈ s.insertionDates) (p : Instant × Option Float) :
    (s.recordPoint inserted p).Dated := by
  refine ⟨h.ascending, fun q hq v hv => ?_⟩
  rcases Sorted.mem_put hq with rfl | hq
  · rcases History.mem_record hv with heq | hv
    · exact heq ▸ known
    · cases found : Sorted.get? p.1 s.points with
      | none =>
          rw [found] at hv
          cases hv
      | some history =>
          rw [found] at hv
          exact h.versions _ (Sorted.mem_of_get? found) v hv
  · exact h.versions q hq v hv

theorem Dated.recordRevision {s : StoredSeries} (h : s.Dated) (inserted : Instant)
    (points : List (Instant × Option Float)) : (s.recordRevision inserted points).Dated := by
  have recorded : ∀ {s : StoredSeries}, s.Dated → inserted ∈ s.insertionDates →
      (points.foldl (StoredSeries.recordPoint · inserted ·) s).Dated := by
    induction points with
    | nil => exact fun h _ => h
    | cons p rest ih => exact fun h known => ih (h.recordPoint known p) known
  refine recorded ⟨Index.ascending_insert inserted h.ascending, fun p hp v hv => ?_⟩
    (Index.mem_insert.2 (.inl rfl))
  exact Index.mem_insert.2 (.inr (h.versions p hp v hv))

theorem get?_read (s : StoredSeries) (w : Window) (revision? : Instant → Option (Option Instant))
    (t : Instant) : (s.read w revision?).get? t = if w.contains t then
      ((Sorted.get? t s.points).bind (fun history =>
        (revision? t).bind history.valueAt?)).bind Series.defined?
    else none := by
  have keys : ∀ (p : Instant × History) (q : Instant × Float),
      (if w.contains p.1 then
        (revision? p.1).bind (fun revision => (p.2.valueAt? revision).map (p.1, ·))
      else none) = some q → q.1 = p.1 := by
    intro p q h
    split at h
    · obtain ⟨revision, -, h⟩ := Option.bind_eq_some_iff.1 h
      obtain ⟨v, -, rfl⟩ := Option.map_eq_some_iff.1 h
      rfl
    · cases h
  rw [read, Series.get?_ofPoints_filterMap s.ascending keys]
  cases Sorted.get? t s.points with
  | none => simp
  | some history =>
      simp only [Option.bind_some]
      split
      · congr 1
        cases revision? t with
        | none => rfl
        | some revision =>
            simp only [Option.bind_some, Option.map_map]
            exact Option.map_id'
      · rfl

theorem read_congr {s : StoredSeries} (w : Window) {f g : Instant → Option (Option Instant)}
    (same : ∀ p ∈ s.points, (f p.1).bind p.2.valueAt? = (g p.1).bind p.2.valueAt?) :
    s.read w f = s.read w g := by
  unfold read
  congr 1
  refine List.filterMap_congr (fun p hp => ?_)
  have values : ∀ revision? : Option (Option Instant),
      revision?.bind (fun revision => (p.2.valueAt? revision).map (p.1, ·)) =
        (revision?.bind p.2.valueAt?).map (p.1, ·) := by
    intro revision?
    cases revision? <;> rfl
  simp only [values, same p hp]

theorem mem_read {s : StoredSeries} {w : Window} {f : Instant → Option (Option Instant)}
    {p : Instant × Float} (h : p ∈ (s.read w f).points) : w.contains p.1 = true := by
  have found := Series.get?_eq_some_iff.2 (show (p.1, p.2) ∈ _ from h)
  rw [get?_read] at found
  by_cases hw : w.contains p.1 = true
  · exact hw
  · rw [if_neg hw] at found
    cases found

end StoredSeries

namespace Store

/-- Stores that are built by recording revisions, setting metadata and removing series. -/
inductive Built : Store → Prop
  | empty : Built {}
  | insert {store} (h : Built store) (name inserted points) : Built (store.insert name inserted points)
  | update {store} (h : Built store) (name inserted points) : Built (store.update name inserted points)
  | setInfo {store} (h : Built store) (name info) : Built (store.setInfo name info)
  | remove {store} (h : Built store) (name) : Built (store.remove name)

variable {store : Store}

theorem find?_modify (store : Store) (name other : String) (f : StoredSeries → StoredSeries) :
    (store.modify name f).find? other =
      if name = other then some (f ((store.find? name).getD {})) else store.find? other :=
  Sorted.get?_put name other _ store.entries

theorem dated_modify (h : ∀ {name s}, store.find? name = some s → s.Dated) (name : String)
    {f : StoredSeries → StoredSeries} (hf : ∀ s : StoredSeries, s.Dated → (f s).Dated) {other : String}
    {s : StoredSeries} (found : (store.modify name f).find? other = some s) : s.Dated := by
  rw [find?_modify] at found
  split at found
  · cases found
    refine hf _ ?_
    cases hname : store.find? name with
    | none => exact .empty
    | some old => exact h hname
  · exact h found

theorem Built.dated (h : Built store) : ∀ {name s}, store.find? name = some s → s.Dated := by
  induction h with
  | empty => exact fun found => by cases found
  | insert _ name inserted points ih =>
      exact fun found => dated_modify ih name (fun s hs => hs.recordRevision inserted _) found
  | update _ name inserted points ih =>
      exact fun found => dated_modify ih name (fun s hs => hs.recordRevision inserted points) found
  | setInfo _ name info ih =>
      intro other s found
      have kept : ∀ s : StoredSeries, s.Dated → ({ s with info } : StoredSeries).Dated :=
        fun s hs => ⟨hs.ascending, hs.versions⟩
      exact dated_modify ih name kept found
  | remove _ name ih =>
      intro other s found
      rw [find?, Store.remove, Sorted.get?_erase] at found
      split at found
      · cases found
      · exact ih found

theorem mem_insertionDates {name : String} {w : Window} {d : Instant} :
    d ∈ store.insertionDates name w ↔
      (∃ s, store.find? name = some s ∧ d ∈ s.insertionDates) ∧ w.contains d = true := by
  unfold insertionDates
  cases store.find? name with
  | none => simp
  | some s => simp

theorem ascending_insertionDates (h : Built store) (name : String) (w : Window) :
    Index.Ascending (store.insertionDates name w) := by
  unfold insertionDates
  cases found : store.find? name with
  | none => exact .nil
  | some s => exact List.Pairwise.sublist List.filter_sublist (h.dated found).ascending

/-- A series is the same at revisions that come after the same insertion dates. -/
theorem get?_congr (h : Built store) {name : String} (w : Window) {r r' : Instant}
    (same : ∀ s, store.find? name = some s → ∀ d ∈ s.insertionDates, d ≤ r ↔ d ≤ r') :
    store.get? name w (some r) = store.get? name w (some r') := by
  unfold get?
  cases found : store.find? name with
  | none => rfl
  | some s =>
      refine congrArg some (StoredSeries.read_congr w (fun p hp => ?_))
      exact History.valueAt?_congr (fun v hv =>
        same s found v.1 ((h.dated found).versions p hp v hv))

end Store

end SeriesLang
