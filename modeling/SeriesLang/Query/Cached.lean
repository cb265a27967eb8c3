import SeriesLang.Cache
import SeriesLang.Query.Basic

/-! # Queries behind a cache

A cache keeps the answers of a catalog, also that there is no formula of a name. A failure of the
catalog is not kept, and what was kept before it stays.
-/

namespace SeriesLang

/-- The answers of a catalog that were needed last. -/
abbrev FormulaCache := Cache String (Option Expr)

/-- Run against a catalog behind a cache. -/
def Query.runCached {α : Type} (catalog : Catalog) :
    Query α → FormulaCache → Except Error α × FormulaCache
  | .done a, cache => (.ok a, cache)
  | .fail e, cache => (.error e, cache)
  | .lookup name next, cache =>
    match cache.getOrCompute name (catalog name) with
    | (.ok (tree, _), cache) => (next tree).runCached catalog cache
    | (.error e, cache) => (.error e, cache)

end SeriesLang
