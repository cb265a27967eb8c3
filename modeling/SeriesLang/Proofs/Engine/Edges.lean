import SeriesLang.Proofs.Engine.Moves

/-! # Needs after what an engine does

Whatever an engine does to its database, successfully or not, leaves with every formula exactly the names
that it reads. Formulas that others need must not be deleted; nothing else can break it.
-/

namespace SeriesLang

namespace Database

variable {r : Registry} {db db' : Database}

theorem Sound.catalog_ok (h : Sound r db) {name : String} {row : FormulaRow}
    (hrow : db.formulas.row? name = some row) : ∃ e, db.catalog name = .ok (some e) := by
  obtain ⟨e, read, -⟩ := h.reads hrow
  exact ⟨e, catalog_of_row? hrow read⟩

theorem Sound.change (h : Sound r db) (changed : Change r db db') : Sound r db' := by
  cases changed with
  | register text _ _ reads renewed covers =>
      refine h.registered text reads renewed (fun other hother => ?_)
      rcases covers other hother with absent | refreshed
      · obtain ⟨row, hrow⟩ := row?_of_mem_dependents h.table hother
        obtain ⟨tree, answer⟩ := h.catalog_ok hrow
        exact absurd absent (Catalog.overlaid_ne_none answer)
      · exact refreshed
  | rename renames =>
      exact h.replaceFormulas renames.stored renames.known renames.renewed renames.covers

/-- Deleting what is no formula changes nothing. -/
theorem deleteFormula_of_not_contains {name : String} (h : db.formulas.contains name = false) :
    (db.deleteFormula name).2 = db := by
  refine deleteFormula_of_none ?_
  rw [Table.contains, Option.isSome_eq_false_iff, Option.isNone_iff_eq_none] at h
  rw [Table.id?, h, Option.map_none]

end Database

namespace Session

variable {r : Registry} {s t : Session}

/-- A session of an engine with these operators on a database whose needs are exact, behind a cache that
    agrees with it. -/
structure Sound (r : Registry) (s : Session) : Prop where
  registry : s.engine.registry = r
  sound : s.database.Sound r
  coherent : s.Coherent

theorem Sound.written (h : s.Sound r) {db : Database} (sound : db.Sound r) : (s.written db).Sound r :=
  ⟨h.registry, sound, .written s db⟩

theorem Sound.moves {n : Nat} (h : s.Sound r) (moves : Moves s n t) : t.Sound r where
  registry := moves.registry.trans h.registry
  sound := moves.preserves (fun _ => h.coherent) Database.Sound.table
    (fun sound changed => sound.change (h.registry ▸ changed)) h.sound
  coherent := moves.coherent h.coherent

theorem Sound.movesWithin {most : Nat} (h : s.Sound r) (moves : MovesWithin s most t) : t.Sound r := by
  obtain ⟨n, -, moves⟩ := moves
  exact h.moves moves

theorem Sound.delete (h : s.Sound r) {name : String}
    (free : s.database.formulas.contains name = true →
      ∀ other, other ≠ name → name ∉ s.database.dependencies other) :
    (Engine.delete name s).2.Sound r := by
  rw [Engine.delete_leaves]
  refine h.written ?_
  cases stored : s.database.formulas.contains name with
  | true => exact h.sound.deleteFormula (free stored)
  | false => exact (Database.deleteFormula_of_not_contains stored).symm ▸ h.sound

theorem Sound.updateMetadata (h : s.Sound r) (name : String) (metadata : Json) :
    (Engine.updateMetadata name metadata s).2.Sound r := by
  rcases Engine.updateMetadata_leaves name metadata s with same | ⟨json, written⟩
  · exact same.symm ▸ h
  · -- The cache is not given up, but the formulas are the same.
    rw [written]
    refine ⟨h.registry, h.sound.setMetadata name json, ?_⟩
    show FormulaCache.Coherent (s.database.setMetadata name json).2.catalog s.engine.trees
    rw [Database.catalog_setMetadata]
    exact h.coherent

theorem Sound.restore (h : s.Sound r) {backup : Option Database} (sound : ∀ db ∈ backup, db.Sound r) :
    (Engine.restore backup s).2.Sound r := by
  rcases Engine.restore_leaves backup s with same | ⟨db, hdb, written⟩
  · exact same.symm ▸ h
  · rw [written]
    exact h.written (sound db hdb).restore

end Session

end SeriesLang
