import SeriesLang.Time.Instant

/-! # Indexes

An index is a list of instants in strictly ascending order.
-/

namespace SeriesLang.Index

/-- Merge two indexes behind the instants that came before them, last one first. -/
def mergeOnto (before : List Instant) : List Instant → List Instant → List Instant
  | [], us => before.reverseAux us
  | ts, [] => before.reverseAux ts
  | t :: ts, u :: us =>
    if t < u then mergeOnto (t :: before) ts (u :: us)
    else if t = u then mergeOnto (t :: before) ts us
    else mergeOnto (u :: before) (t :: ts) us
termination_by ts us => ts.length + us.length

/-- The instants of both indexes. -/
def merge (ts us : List Instant) : List Instant :=
  mergeOnto [] ts us

/-- The instants of all indexes. -/
def union (indexes : List (List Instant)) : List Instant :=
  indexes.foldr merge []

/-- Put an instant into an index. -/
def insert (t : Instant) (ts : List Instant) : List Instant :=
  merge [t] ts

theorem mem_mergeOnto {x : Instant} {before ts us : List Instant} :
    x ∈ mergeOnto before ts us ↔ x ∈ before ∨ x ∈ ts ∨ x ∈ us := by
  fun_induction mergeOnto before ts us with
  | case1 before us => simp [List.reverseAux_eq]
  | case2 before ts => simp [List.reverseAux_eq]
  | case3 before t ts u us h ih => grind
  | case4 before t ts us h ih => grind
  | case5 before t ts u us h h' ih => grind

/-- A merged index has the instants of both. -/
theorem mem_merge {x : Instant} {ts us : List Instant} : x ∈ merge ts us ↔ x ∈ ts ∨ x ∈ us := by
  simp [merge, mem_mergeOnto]

end SeriesLang.Index
