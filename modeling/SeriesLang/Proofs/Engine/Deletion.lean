import SeriesLang.Proofs.Engine.Runs

/-! # Deleting a formula and registering it again

A formula that is deleted takes with it the needs of others that lead to it. To register it again does not
bring them back: the formulas whose needs are found again are those that need it, and none does any more.
-/

namespace SeriesLang

namespace Database

variable {r : Registry} {catalog : Catalog} {db : Database} {name other : String} {e : Expr}

/-- An expression reads the same names whatever series there are. -/
theorem Reads.unique {needs needs' : List String} (h : Reads r catalog name e needs)
    (h' : Reads r catalog name e needs') : needs' = needs := by
  obtain ⟨store, found, run, rfl⟩ := h
  obtain ⟨store', found', run', rfl⟩ := h'
  obtain ⟨again, runAgain, same⟩ : ∃ again, (Dependencies.ofFormula r store' name e).run catalog =
      .ok again ∧ Dependencies.names again = Dependencies.names found :=
    Dependencies.expand_transfer (Nat.le_refl _) run (fun _ hmem => hmem) rfl (fun _ _ => rfl)
  rw [run'] at runAgain
  cases runAgain
  exact same

theorem dependencies_of_row? {row : FormulaRow} (h : db.formulas.row? name = some row) :
    db.dependencies name = row.needs.map Prod.fst := by
  rw [dependencies, h]
  rfl

/-- The dependents of a name are the formulas that need it. -/
theorem mem_dependents_iff (kept : db.formulas.Kept) :
    other ∈ db.dependents name ↔ name ∈ db.dependencies other := by
  constructor
  · intro h
    obtain ⟨⟨key, entry⟩, hentry, rfl⟩ := List.mem_map.1 h
    obtain ⟨hmem, needs⟩ := List.mem_filter.1 hentry
    have found := Sorted.get?_of_mem kept.ascending hmem
    have row : db.formulas.row? key = some entry.row := by
      rw [Table.row?, Table.find?, found]
      rfl
    rw [dependencies_of_row? row]
    exact Sorted.contains_iff_mem.1 needs
  · intro h
    cases hrow : db.formulas.row? other with
    | none =>
        rw [dependencies, hrow] at h
        cases h
    | some row =>
        rw [dependencies_of_row? hrow] at h
        exact mem_dependents hrow h

theorem dependents_eq_nil (kept : db.formulas.Kept) (h : ∀ other, name ∉ db.dependencies other) :
    db.dependents name = [] :=
  List.eq_nil_iff_forall_not_mem.2 (fun other hmem => h other ((mem_dependents_iff kept).1 hmem))

/-- A formula that is deleted is needed by none of those that stay. -/
theorem Sound.dependencies_deleteFormula (h : Sound r db) {id : Nat}
    (hid : db.formulas.id? name = some id) (apart : other ≠ name) :
    (db.deleteFormula name).2.dependencies other =
      (db.dependencies other).filter (fun need => need ≠ name) := by
  have row := deleteFormula_row? hid other
  rw [if_neg apart] at row
  cases hrow : db.formulas.row? other with
  | none =>
      rw [hrow, Option.map_none] at row
      rw [dependencies, row, dependencies, hrow]
      rfl
  | some old =>
      rw [hrow, Option.map_some] at row
      rw [dependencies_of_row? row, dependencies_of_row? hrow, h.needs_without hid hrow,
        List.filter_map]
      rfl

theorem Sound.dependents_deleteFormula (h : Sound r db) {id : Nat}
    (hid : db.formulas.id? name = some id) : (db.deleteFormula name).2.dependents name = [] := by
  refine dependents_eq_nil (deleteFormula_table h.table name) (fun other hmem => ?_)
  by_cases apart : other = name
  · rw [apart, dependencies, deleteFormula_row? hid, if_pos rfl] at hmem
    cases hmem
  · rw [h.dependencies_deleteFormula hid apart, List.mem_filter] at hmem
    exact of_decide_eq_true hmem.2 rfl

/-- To write a formula that none needs changes no needs but its own. -/
theorem dependencies_registered (db : Database) {w : FormulaWrite} (needs : Reads r catalog w.name e w.needs)
    (other : String) : (db.registered w []).dependencies other =
      if other = w.name then w.needs else db.dependencies other := by
  have row : (db.registered w []).formulas.row? other = _ := putFormula_row? db w other
  rw [dependencies, row]
  split
  · rw [Option.map_some, Option.getD_some, needs.needsRow, List.map_map]
    exact List.map_id w.needs
  · rfl

/-- When a formula was deleted and is registered again with its text, all formulas need what they needed
    before, but for the formula itself. -/
theorem Sound.dependencies_restored (h : Sound r db) {row : FormulaRow}
    (stored : db.formulas.row? name = some row) {w : FormulaWrite} (named : w.name = name)
    (read : Expr.ofText row.text = .ok e)
    (reads : Reads r (db.deleteFormula name).2.catalog name e w.needs) (other : String) :
    ((db.deleteFormula name).2.registered w []).dependencies other =
      (db.dependencies other).filter (fun need => need ≠ name) := by
  subst named
  obtain ⟨id, hid⟩ := Table.id?_of_row? stored
  rw [dependencies_registered _ reads]
  split
  · rename_i heq
    subst heq
    obtain ⟨tree, text, before⟩ := h.reads stored
    rw [read] at text
    cases text
    have same : w.needs = row.needs.map Prod.fst := by
      refine (before.transfer (fun need hneed => ?_)).unique reads
      rw [catalog_deleteFormula, if_neg]
      rintro rfl
      exact before.not_mem hneed
    rw [same, dependencies_of_row? stored, eq_comm, List.filter_eq_self]
    intro need hneed
    rw [decide_eq_true_eq]
    rintro rfl
    exact before.not_mem hneed
  · rename_i apart
    exact h.dependencies_deleteFormula hid apart

end Database

namespace Session

variable {s t : Session} {name : String}

/-- Where a formula is deleted and registered again with its text, no formula needs it any more. All
    formulas need the other names that they needed before. -/
theorem dependencies_delete_register (h : s.database.Sound s.engine.registry) {row : FormulaRow}
    (stored : s.database.formulas.row? name = some row) {options : RegisterOptions} {id : Nat}
    (again : Engine.register name row.text options (Engine.delete name s).2 = (.ok id, t)) :
    t.database.dependents name = [] ∧ ∀ other, t.database.dependencies other =
      (s.database.dependencies other).filter (fun need => need ≠ name) := by
  obtain ⟨e, w, refreshed, read, planned, rfl⟩ :=
    (Engine.contract_register name row.text options _ rfl).1 id t again
  have coherent : (Engine.delete name s).2.synced.Coherent := Coherent.synced (.written _ _)
  rw [coherent.answer, plan, synced_registry, synced_database, Engine.delete_leaves,
    written_registry, written_database] at planned
  obtain ⟨named, -, reads, -, origin, -⟩ := Registration.plan_ok planned
  -- The formulas whose needs are found again are the dependents, and there are none left.
  obtain rfl : refreshed = [] := by
    rw [List.eq_nil_iff_forall_not_mem]
    intro p hp
    have hmem := origin p hp
    rw [h.dependents_deleteFormula (Table.id?_of_row? stored).choose_spec] at hmem
    cases hmem
  have needs : ∀ other, ((s.database.deleteFormula name).2.registered w []).dependencies other =
      (s.database.dependencies other).filter (fun need => need ≠ name) :=
    h.dependencies_restored stored named read (named ▸ reads)
  refine ⟨Database.dependents_eq_nil ?_ (fun other hmem => ?_), needs⟩
  · exact Database.registered_table (Database.deleteFormula_table h.table name) w []
  · have hmem : name ∈ ((s.database.deleteFormula name).2.registered w []).dependencies other := hmem
    rw [needs, List.mem_filter] at hmem
    exact of_decide_eq_true hmem.2 rfl

/-- A formula that another one reads, before it is deleted and after it is registered again. -/
theorem registered_again : ∃ (w : Workspace) (t : Session), Workspace.Reachable .builtin w ∧
    (w.session.database.formulas.row? "base").map FormulaRow.text = some "(series \"early\")" ∧
    w.session.database.dependents "base" = ["sum"] ∧
    Engine.register "base" "(series \"early\")" { rejectUnknown := false }
      (Engine.delete "base" w.session).2 = (.ok 3, t) ∧
    (t.database.formulas.row? "sum").map FormulaRow.text = some "(+ 1 (series \"base\"))" ∧
    t.database.dependents "base" = [] := by
  have first := (Workspace.Reachable.start {} {} : Workspace.Reachable .builtin _).step
    (.register "base" "(series \"early\")" { rejectUnknown := false }) trivial
  have second := first.step
    (.register "sum" "(+ 1 (series \"base\"))" { rejectUnknown := false }) trivial
  exact ⟨_, _, second, by decide +kernel, by decide +kernel, Action.run_of_fst (by decide +kernel),
    by decide +kernel, by decide +kernel⟩

/-- What the formula of a sum needs is `base` no longer, though it still reads it. -/
theorem dependencies_delete_register_base : ∃ (w : Workspace) (t : Session), Workspace.Reachable .builtin w ∧
    (t.database.formulas.row? "sum").map FormulaRow.text = some "(+ 1 (series \"base\"))" ∧
    t.database.dependents "base" = [] ∧ ∀ other, t.database.dependencies other =
      (w.session.database.dependencies other).filter (fun need => need ≠ "base") := by
  obtain ⟨w, t, reached, text, -, again, reads, -⟩ := registered_again
  obtain ⟨row, stored, text⟩ := Option.map_eq_some_iff.1 text
  have sound : w.session.database.Sound w.session.engine.registry :=
    reached.sound.session.registry ▸ reached.sound.session.sound
  exact ⟨w, t, reached, reads, dependencies_delete_register sound stored (text ▸ again)⟩

/-- Not every dependent comes back with a formula that is registered again. -/
theorem dependents_not_restored : ¬ ∀ (w : Workspace) (name text : String) (options : RegisterOptions)
    (id : Nat) (t : Session), Workspace.Reachable .builtin w →
    (w.session.database.formulas.row? name).map FormulaRow.text = some text →
    Engine.register name text options (Engine.delete name w.session).2 = (.ok id, t) →
    t.database.dependents name = w.session.database.dependents name := by
  intro restored
  obtain ⟨w, t, reached, text, before, again, -, after⟩ := registered_again
  have same := restored w "base" _ _ 3 t reached text again
  rw [before, after] at same
  cases same

end Session

end SeriesLang
