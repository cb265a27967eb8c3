import SeriesLang.Series.Stored
import SeriesLang.Store.History
import SeriesLang.Time.Index
import SeriesLang.Time.Span

/-! # Versioned series

A store keeps series by name with all their revisions. A series can be read as it was at any insertion
date, and as its staircase: each value as it was known a fixed time before its value date.
-/

namespace SeriesLang

/-- A series with its revisions. -/
structure StoredSeries where
  info : SeriesMeta := {}
  /-- The insertion dates of its revisions, in order. -/
  insertionDates : List Instant := []
  /-- The history of each value date, in order. -/
  points : List (Instant × History) := []
  ascending : Sorted.Ascending points := by exact .nil
deriving DecidableEq

namespace StoredSeries

/-- Record a version of one point. -/
def recordPoint (s : StoredSeries) (inserted : Instant) (p : Instant × Option Float) :
    StoredSeries :=
  { s with
    points := Sorted.put p.1 (((Sorted.get? p.1 s.points).getD .empty).record inserted p.2) s.points
    ascending := s.ascending.put _ _ }

/-- Record a revision: points with their values, or with none where they are erased. -/
def recordRevision (s : StoredSeries) (inserted : Instant) (points : List (Instant × Option Float)) :
    StoredSeries :=
  points.foldl (recordPoint · inserted ·)
    { s with insertionDates := Index.insert inserted s.insertionDates }

/-- The points of a window, each at the revision that a function gives for its value date. -/
def read (s : StoredSeries) (w : Window) (revision? : Instant → Option (Option Instant)) : Series :=
  .ofPoints (s.points.filterMap (fun (t, history) =>
    if w.contains t then
      (revision? t).bind (fun revision => (history.valueAt? revision).map (t, ·))
    else none))

end StoredSeries

/-- A store of versioned series. -/
structure Store where
  /-- Sorted by name. -/
  entries : List (String × StoredSeries) := []
deriving DecidableEq

namespace Store

/-- The series of a name. -/
def find? (store : Store) (name : String) : Option StoredSeries :=
  Sorted.get? name store.entries

/-- Change the series of a name, which comes into being if it is new. -/
def modify (store : Store) (name : String) (f : StoredSeries → StoredSeries) : Store :=
  ⟨Sorted.put name (f ((store.find? name).getD {})) store.entries⟩

/-- Record a revision with values and erasures. -/
def update (store : Store) (name : String) (inserted : Instant)
    (points : List (Instant × Option Float)) : Store :=
  store.modify name (·.recordRevision inserted points)

/-- Record a revision with values; NaN erases. -/
def insert (store : Store) (name : String) (inserted : Instant) (points : List (Instant × Float)) :
    Store :=
  store.update name inserted (points.map (fun (t, v) => (t, some v)))

/-- Set the metadata of a series. -/
def setInfo (store : Store) (name : String) (info : SeriesMeta) : Store :=
  store.modify name (fun s => { s with info })

/-- Remove a series. -/
def remove (store : Store) (name : String) : Store :=
  ⟨Sorted.erase name store.entries⟩

/-- The names of the series, in order. -/
def names (store : Store) : List String :=
  store.entries.map Prod.fst

/-- The metadata of a series. -/
def info? (store : Store) (name : String) : Option SeriesMeta :=
  (store.find? name).map StoredSeries.info

/-- Is there a series of this name? -/
def contains (store : Store) (name : String) : Bool :=
  (store.find? name).isSome

/-- A series over a window, as it was at a revision or as it is. -/
def get? (store : Store) (name : String) (w : Window) (revision : Option Instant) : Option Series :=
  (store.find? name).map (·.read w (fun _ => some revision))

/-- The insertion dates of a series that lie in a window, in order. -/
def insertionDates (store : Store) (name : String) (w : Window) : List Instant :=
  match store.find? name with
  | some s => s.insertionDates.filter w.contains
  | none => []

/-- The staircase of a series: each value of the window as it was known a lag before its value date. -/
def staircase? (store : Store) (name : String) (lag : Lag) (w : Window) : Option Series :=
  (store.find? name).map (·.read w (fun t => (t.before? lag).map some))

end Store

/-- The points that a snapshot contributes to a staircase: those from a lag after its own date on up to
    before that of the next snapshot. A date that cannot be moved does not bound from above, and
    takes the snapshot away from below. -/
def stairSlice (lag : Lag) (inserted : Instant) (next : Option Instant) (snapshot : Series) :
    List (Instant × Float) :=
  match inserted.after? lag with
  | none => []
  | some low =>
    let high := next.bind (·.after? lag)
    snapshot.points.filter (fun p => decide (low ≤ p.1) && high.all (fun h => decide (p.1 < h)))

/-- The window of insertion dates that a staircase over a window can need. -/
def stairBound (lag : Lag) (w : Window) : Window :=
  ⟨none, w.upper.bind (·.before? lag)⟩

namespace Store

/-- The slices of the snapshots at each insertion date, one after the other. -/
def stairSlices (store : Store) (name : String) (lag : Lag) (w : Window) (s : Series) :
    List Instant → Series
  | [] => s
  | inserted :: rest =>
    match store.get? name w (some inserted) with
    | some snapshot =>
      stairSlices store name lag w (s.insertAll (stairSlice lag inserted rest.head? snapshot)) rest
    | none => stairSlices store name lag w s rest

/-- The staircase of a series, put together from its snapshots at every insertion date. -/
def replayStaircase? (store : Store) (name : String) (lag : Lag) (w : Window) : Option Series :=
  if store.contains name then
    some (store.stairSlices name lag w .empty
      (store.insertionDates name (stairBound lag w)))
  else none

end Store

end SeriesLang
