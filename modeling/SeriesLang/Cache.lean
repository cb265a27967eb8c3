import SeriesLang.Error
import SeriesLang.Limits

/-! # Bounded caches

A cache keeps the entries that were used last. Its entries stand in the order of their last use, the
oldest first; over its capacity the oldest are given up.
-/

namespace SeriesLang

/-- A map of bounded size that forgets what was not used for longest. -/
structure Cache (κ α : Type) where
  capacity : Nat
  /-- From the one used longest ago to the one used last. -/
  entries : List (κ × α)
deriving DecidableEq, Repr

namespace Cache

variable {κ α : Type} [DecidableEq κ]

/-- An empty cache; the capacity is cut to the limits. -/
def create (capacity : Nat) : Cache κ α :=
  ⟨Limits.clampCacheEntries capacity, []⟩

/-- The number of entries. -/
def size (c : Cache κ α) : Nat :=
  c.entries.length

/-- The value of a key, without a use. -/
def peek? (c : Cache κ α) (key : κ) : Option α :=
  (c.entries.find? (fun p => p.1 = key)).map Prod.snd

/-- The entries of all other keys. -/
def without (key : κ) (entries : List (κ × α)) : List (κ × α) :=
  entries.filter (fun p => p.1 ≠ key)

/-- Put an entry last and give up the oldest ones over the capacity. -/
def insert (c : Cache κ α) (key : κ) (value : α) : Cache κ α :=
  let entries := without key c.entries ++ [(key, value)]
  { c with entries := entries.drop (entries.length - c.capacity) }

/-- Look a key up; a hit counts as a use. -/
def get? (c : Cache κ α) (key : κ) : Option α × Cache κ α :=
  match c.peek? key with
  | some value => (some value, { c with entries := without key c.entries ++ [(key, value)] })
  | none => (none, c)

/-- Did a look-up find its entry, or was the value computed? -/
inductive Outcome where
  | hit
  | miss
deriving DecidableEq, Repr

/-- The text of an outcome. -/
def Outcome.text : Outcome → String
  | .hit => "cache_hit"
  | .miss => "cache_miss"

/-- The value of a key, computed and kept on a miss. A failure is not kept. -/
def getOrCompute (c : Cache κ α) (key : κ) (compute : Except Error α) :
    Except Error (α × Outcome) × Cache κ α :=
  match c.get? key with
  | (some value, c) => (.ok (value, .hit), c)
  | (none, c) =>
    match compute with
    | .ok value => (.ok (value, .miss), c.insert key value)
    | .error e => (.error e, c)

/-- Remove a key; was it there? -/
def invalidate (c : Cache κ α) (key : κ) : Bool × Cache κ α :=
  ((c.peek? key).isSome, { c with entries := without key c.entries })

/-- Remove everything. -/
def clear (c : Cache κ α) : Cache κ α :=
  { c with entries := [] }

/-- The numbers of entries that there are and that there may be. -/
def stats (c : Cache κ α) : List (String × Nat) :=
  [("entries", c.size), ("max_entries", c.capacity)]

end Cache

end SeriesLang
