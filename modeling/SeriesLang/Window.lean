import SeriesLang.Time.Instant

/-! # Windows

The value dates that a query asks for, as a closed interval; a missing bound does not bound.
-/

namespace SeriesLang

/-- An interval of instants, both ends included. -/
structure Window where
  lower : Option Instant := none
  upper : Option Instant := none
deriving DecidableEq, Repr

namespace Window

/-- The window of all instants. -/
def all : Window := {}

/-- The window between two instants. -/
def between (lower upper : Instant) : Window :=
  ⟨some lower, some upper⟩

/-- Does the instant lie in the window? -/
def contains (w : Window) (t : Instant) : Bool :=
  w.lower.all (fun l => decide (l ≤ t)) && w.upper.all (fun u => decide (t ≤ u))

/-- The tighter of two bounds. -/
def tighter (pick : Instant → Instant → Instant) : Option Instant → Option Instant → Option Instant
  | some a, some b => some (pick a b)
  | a, b => a.or b

/-- The instants that lie in both windows. -/
def intersect (a b : Window) : Window :=
  ⟨tighter max a.lower b.lower, tighter min a.upper b.upper⟩

end Window

end SeriesLang
