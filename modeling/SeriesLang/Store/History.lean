import SeriesLang.Sorted
import SeriesLang.Time.Instant

/-! # Histories of a point

What was said about one value date, by insertion date: a value, or that there is none.
-/

namespace SeriesLang

/-- The versions of one point, by the insertion date at which each was recorded. -/
structure History where
  /-- A version without a value says that the point was erased. -/
  versions : List (Instant × Option Float)
  ascending : Sorted.Ascending versions
deriving DecidableEq

namespace History

/-- The history of a point about which nothing was said. -/
def empty : History :=
  ⟨[], .nil⟩

/-- Record a version, in the place of one of the same insertion date. NaN is no value. -/
def record (h : History) (inserted : Instant) (value : Option Float) : History :=
  ⟨Sorted.put inserted (value.filter (fun v => !v.isNaN)) h.versions, h.ascending.put _ _⟩

/-- The version that is in force at a revision: the last one not after it, or the last one of all. -/
def versionAt? (h : History) (revision : Option Instant) : Option (Instant × Option Float) :=
  match revision with
  | some r => (h.versions.filter (fun v => decide (v.1 ≤ r))).getLast?
  | none => h.versions.getLast?

/-- The value at a revision. -/
def valueAt? (h : History) (revision : Option Instant) : Option Float :=
  (h.versionAt? revision).bind Prod.snd

end History

end SeriesLang
