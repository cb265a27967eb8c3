import SeriesLang.Sorted
import SeriesLang.Window

/-! # Series

A series is a finite map from instants to defined values: a missing value is an absent point, so no
value is NaN. Its options say how a combinator fills and weighs it; they are no part of its content.
-/

namespace SeriesLang

/-- A direction in which a missing value takes the one beside it. -/
inductive FillMethod where
  | forward
  | backward
deriving DecidableEq, Repr

/-- How missing values are replaced when a series is aligned with others. -/
inductive FillPolicy where
  | value (v : Float)
  /-- Each method in turn. -/
  | methods (list : List FillMethod)
deriving DecidableEq

/-- How a combinator treats a series. -/
structure SeriesOptions where
  fill : Option FillPolicy := none
  /-- The most cells that are filled, in a row by a method and in all by a value. -/
  limit : Option Nat := none
  weight : Option Float := none
deriving DecidableEq

/-- A finite map from instants to numbers, in ascending order. -/
structure Series where
  points : List (Instant × Float)
  options : SeriesOptions := {}
  ascending : Sorted.Ascending points
  defined : ∀ p ∈ points, p.2.isNaN = false
deriving DecidableEq

namespace Series

/-- The series without points. -/
def empty : Series :=
  ⟨[], {}, .nil, by simp⟩

instance : Inhabited Series := ⟨empty⟩

/-- The value at an instant. -/
def get? (s : Series) (t : Instant) : Option Float :=
  Sorted.get? t s.points

/-- The number of points. -/
def size (s : Series) : Nat :=
  s.points.length

/-- The instants of the points. -/
def index (s : Series) : List Instant :=
  s.points.map Prod.fst

/-- The values of the points. -/
def values (s : Series) : List Float :=
  s.points.map Prod.snd

/-- Set the value at an instant; NaN removes the point. -/
def insert (s : Series) (t : Instant) (v : Float) : Series :=
  if h : v.isNaN = true then
    { s with
      points := Sorted.erase t s.points
      ascending := s.ascending.erase t
      defined := fun p hp => s.defined p (List.mem_filter.1 hp).1 }
  else
    { s with
      points := Sorted.put t v s.points
      ascending := s.ascending.put t v
      defined := fun p hp => by
        rcases Sorted.mem_put hp with rfl | hp
        · simpa using h
        · exact s.defined p hp }

/-- Keep the points that pass a test. -/
def retain (s : Series) (keep : Instant → Float → Bool) : Series :=
  { s with
    points := s.points.filter (fun p => keep p.1 p.2)
    ascending := List.Pairwise.sublist List.filter_sublist s.ascending
    defined := fun p hp => s.defined p (List.mem_filter.1 hp).1 }

/-- Keep the points in a window. -/
def restrict (s : Series) (w : Window) : Series :=
  s.retain (fun t _ => w.contains t)

/-- Drop the last points, at most so many. -/
def pruneLast (s : Series) (count : Nat) : Series :=
  { s with
    points := s.points.take (s.points.length - count)
    ascending := List.Pairwise.sublist (List.take_sublist _ _) s.ascending
    defined := fun p hp => s.defined p (List.mem_of_mem_take hp) }

/-- A point with its value replaced, unless the new value is NaN. -/
def mapPoint? (f : Float → Float) (p : Instant × Float) : Option (Instant × Float) :=
  if (f p.2).isNaN then none else some (p.1, f p.2)

/-- Apply a function to every value; a point whose new value is NaN is dropped. -/
def mapValues (s : Series) (f : Float → Float) : Series :=
  { s with
    points := s.points.filterMap (mapPoint? f)
    ascending := List.Pairwise.filterMap _ (fun a a' h b hb b' hb' => by
      simp only [mapPoint?, Option.ite_none_left_eq_some, Option.some.injEq] at hb hb'
      rw [← hb.2, ← hb'.2]
      exact h) s.ascending
    defined := fun p hp => by
      obtain ⟨q, _, hq⟩ := List.mem_filterMap.1 hp
      simp only [mapPoint?, Option.ite_none_left_eq_some, Option.some.injEq] at hq
      rw [← hq.2]
      simpa using hq.1 }

/-- Do the instants of the points ascend? -/
def ascends : List (Instant × Float) → Bool
  | p :: q :: rest => decide (p.1 < q.1) && ascends (q :: rest)
  | _ => true

theorem ascending_of_ascends {points : List (Instant × Float)} (h : ascends points = true) :
    Sorted.Ascending points := by
  induction points with
  | nil => exact .nil
  | cons p rest ih =>
    cases rest with
    | nil => exact .cons (by simp) .nil
    | cons q rest =>
      simp only [ascends, Bool.and_eq_true, decide_eq_true_eq] at h
      have hq := ih h.2
      refine .cons (fun r hr => ?_) hq
      rcases List.mem_cons.1 hr with rfl | hr
      · exact h.1
      · exact Instant.lt_trans h.1 ((List.pairwise_cons.1 hq).1 r hr)

/-- Put points that ascend behind those of a series; points with NaN are left out. -/
def append (s : Series) (points : List (Instant × Float))
    (h : Sorted.Ascending (s.points ++ points)) : Series :=
  { s with
    points := s.points ++ points.filter (fun p => !p.2.isNaN)
    ascending := List.Pairwise.sublist
      (List.Sublist.append (List.Sublist.refl _) List.filter_sublist) h
    defined := fun p hp => by
      rcases List.mem_append.1 hp with hp | hp
      · exact s.defined p hp
      · simpa using (List.mem_filter.1 hp).2 }

/-- Set the points one after the other: of several at one instant the last counts, and one with NaN
    removes those before it. Points that ascend behind all others need no search for their places. -/
def insertAll (s : Series) (points : List (Instant × Float)) : Series :=
  if h : ascends (s.points ++ points) = true then s.append points (ascending_of_ascends h)
  else points.foldl (fun s p => s.insert p.1 p.2) s

/-- The series of a list of points, set one after the other. -/
def ofPoints (points : List (Instant × Float)) : Series :=
  empty.insertAll points

/-- The same points with other options. -/
def withOptions (s : Series) (options : SeriesOptions) : Series :=
  { s with options }

/-- The first point. -/
def first? (s : Series) : Option (Instant × Float) :=
  s.points.head?

/-- The last point. -/
def last? (s : Series) : Option (Instant × Float) :=
  s.points.getLast?

/-- Do two series have the same instants with equal values? The zeros of both signs are equal. -/
def sameAs (a b : Series) : Bool :=
  a.points.length == b.points.length
    && (a.points.zip b.points).all (fun (p, q) => p.1 == q.1 && p.2 == q.2)

end Series

end SeriesLang
