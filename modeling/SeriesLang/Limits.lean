/-! # Limits

The bounds on what a query, a cache or an expression may grow to, and how a wish is cut to them.
-/

namespace SeriesLang.Limits

/-- The nesting that an evaluation reaches unless told otherwise. -/
def defaultDepth : Nat := 128

/-- The least nesting an engine can be set to. -/
def minDepth : Nat := 4

/-- The greatest nesting an engine can be set to. -/
def maxDepth : Nat := 4096

/-- The most points that one operator generates. -/
def generatedPoints : Nat := 1000000

/-- The longest timeout that the environment can set, in milliseconds. -/
def timeoutMillis : Int := 3600000

/-- The longest chain of formulas that is followed by name. -/
def resolveDepth : Nat := 64

/-- How often a write is planned again at most, counted with the first time. -/
def writeAttempts : Nat := 3

/-- The entries of a cache unless told otherwise. -/
def defaultCacheEntries : Nat := 512

/-- The most entries of a cache. -/
def maxCacheEntries : Nat := 65536

/-- The seconds for which a cache keeps an entry. -/
def cacheSeconds : Float := 300

/-- Cut a number from below and then from above. -/
def clamp (value least greatest : Int) : Int :=
  min (max value least) greatest

/-- Cut a wish for an evaluation depth. -/
def clampDepth (value : Int) : Nat :=
  (clamp value minDepth maxDepth).toNat

/-- Cut a wish for a number of cache entries. -/
def clampCacheEntries (value : Int) : Nat :=
  (clamp value 1 maxCacheEntries).toNat

end SeriesLang.Limits
