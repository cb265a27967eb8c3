import SeriesLang.Proofs.Sorted
import SeriesLang.Proofs.Success
import SeriesLang.Query.Cached

/-! # Running queries

A query sees of a catalog only the answers to its look-ups: formulas laid over a query are formulas of
the catalog, and a cache that is coherent with the catalog changes no result.
-/

namespace SeriesLang

variable {α β : Type} {catalog : Catalog}

/-- A catalog with some of its formulas replaced. -/
def Catalog.overlaid (catalog : Catalog) (formulas : List (String × Expr)) : Catalog :=
  fun name =>
    match Sorted.get? name formulas with
    | some tree => .ok (some tree)
    | none => catalog name

theorem Catalog.overlaid_single (catalog : Catalog) (name other : String) (tree : Expr) :
    catalog.overlaid [(name, tree)] other =
      if other = name then .ok (some tree) else catalog other := by
  unfold overlaid
  rw [Sorted.get?_cons, Sorted.get?_nil]
  by_cases heq : other = name
  · rw [if_pos heq.symm, if_pos heq]
  · rw [if_neg (fun h => heq h.symm), if_neg heq]

namespace Query

theorem run_overlay (catalog : Catalog) (formulas : List (String × Expr)) (q : Query α) :
    (q.overlay formulas).run catalog = q.run (catalog.overlaid formulas) := by
  induction q with
  | done a => rfl
  | fail e => rfl
  | lookup name next ih =>
      cases hget : Sorted.get? name formulas with
      | some tree =>
          simp only [overlay, run, Catalog.overlaid, hget]
          exact ih (some tree)
      | none =>
          simp only [overlay, run, Catalog.overlaid, hget]
          cases catalog name with
          | error e => rfl
          | ok tree => exact ih tree

theorem run_formula (catalog : Catalog) (name : String) :
    (formula name).run catalog = catalog name := by
  simp only [formula, run]
  cases catalog name <;> rfl

theorem run_foldOver (catalog : Catalog) (f : β → α → Query β) (b : β) (as : List α) :
    (foldOver f b as).run catalog = as.foldlM (fun b a => (f b a).run catalog) b := by
  induction as generalizing b with
  | nil => rfl
  | cons a as ih =>
      rw [foldOver, run_bind, List.foldlM_cons]
      cases (f b a).run catalog with
      | error e => rfl
      | ok b => exact ih b

theorem run_forEach (catalog : Catalog) (f : α → Query β) (as : List α) :
    (forEach f as).run catalog = as.mapM (fun a => (f a).run catalog) := by
  induction as with
  | nil => rfl
  | cons a as ih =>
      rw [forEach, run_bind, List.mapM_cons]
      cases (f a).run catalog with
      | error e => rfl
      | ok b =>
          show ((forEach f as).bind _).run catalog = _
          rw [run_bind, ih]
          rfl

end Query

namespace FormulaCache

/-- Every entry of the cache is what the catalog answers. -/
def Coherent (catalog : Catalog) (cache : FormulaCache) : Prop :=
  ∀ p ∈ cache.entries, catalog p.1 = .ok p.2

theorem Coherent.clear (catalog : Catalog) (cache : FormulaCache) :
    Coherent catalog (Cache.clear cache) := by
  intro p hp
  cases hp

theorem Coherent.create (catalog : Catalog) (capacity : Nat) :
    Coherent catalog (Cache.create capacity) := by
  intro p hp
  cases hp

theorem mem_without {name : String} {p : String × Option Expr} {entries : List (String × Option Expr)}
    (h : p ∈ Cache.without name entries) : p ∈ entries :=
  (List.mem_filter.1 h).1

theorem Coherent.last {cache : FormulaCache} (h : Coherent catalog cache) {name : String}
    {tree : Option Expr} (found : catalog name = .ok tree) {p : String × Option Expr}
    (hp : p ∈ Cache.without name cache.entries ++ [(name, tree)]) : catalog p.1 = .ok p.2 := by
  rcases List.mem_append.1 hp with hp | hp
  · exact h p (mem_without hp)
  · rw [List.mem_singleton.1 hp]
    exact found

/-- A coherent cache answers as the catalog does, and stays coherent. -/
theorem Coherent.getOrCompute {cache : FormulaCache} (h : Coherent catalog cache) (name : String) :
    (cache.getOrCompute name (catalog name)).1.map Prod.fst = catalog name ∧
      Coherent catalog (cache.getOrCompute name (catalog name)).2 := by
  unfold Cache.getOrCompute Cache.get?
  cases hpeek : cache.peek? name with
  | some tree =>
      have found : catalog name = .ok tree := by
        obtain ⟨p, hp, rfl⟩ := Option.map_eq_some_iff.1 hpeek
        have hname := List.find?_some hp
        simp only [decide_eq_true_eq] at hname
        rw [← hname]
        exact h p (List.mem_of_find?_eq_some hp)
      exact ⟨found.symm, fun p hp => h.last found hp⟩
  | none =>
      cases found : catalog name with
      | error e => exact ⟨rfl, h⟩
      | ok tree => exact ⟨rfl, fun p hp => h.last found (List.mem_of_mem_drop hp)⟩

end FormulaCache

/-- Behind a coherent cache a query has the result that it has without one. -/
theorem Query.runCached_coherent {cache : FormulaCache} (h : FormulaCache.Coherent catalog cache)
    (q : Query α) : (q.runCached catalog cache).1 = q.run catalog ∧
      FormulaCache.Coherent catalog (q.runCached catalog cache).2 := by
  induction q generalizing cache with
  | done a => exact ⟨rfl, h⟩
  | fail e => exact ⟨rfl, h⟩
  | lookup name next ih =>
      obtain ⟨answer, coherent⟩ := h.getOrCompute name
      unfold runCached run
      cases hfound : cache.getOrCompute name (catalog name) with
      | mk result cache =>
          rw [hfound] at answer coherent
          cases result with
          | error e =>
              rw [← answer]
              exact ⟨rfl, coherent⟩
          | ok found =>
              obtain ⟨tree, outcome⟩ := found
              rw [← answer]
              exact ih tree coherent

end SeriesLang
