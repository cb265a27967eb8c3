import SeriesLang.Engine.Register
import SeriesLang.Proofs.Database.Catalog
import SeriesLang.Proofs.Query.Closure

/-! # Needs of stored formulas

The needs that are stored with a formula are exactly the names that it reads, directly or through the
formulas that are stored with it. A write keeps this as long as the needs of every formula are found
again that needs one of the formulas written.
-/

namespace SeriesLang.Database

variable {r : Registry} {catalog catalog' : Catalog} {name : String} {e : Expr} {needs : List String}

/-- These are the names that an expression reads which is the formula of a name. -/
def Reads (r : Registry) (catalog : Catalog) (name : String) (e : Expr) (needs : List String) : Prop :=
  ∃ store found, (Dependencies.ofFormula r store name e).run catalog = .ok found ∧
    Dependencies.names found = needs

theorem Reads.transfer (h : Reads r catalog name e needs)
    (agree : ∀ need ∈ needs, catalog' need = catalog need) : Reads r catalog' name e needs := by
  obtain ⟨store, found, run, rfl⟩ := h
  obtain ⟨found', run', same⟩ : ∃ found', (Dependencies.ofFormula r store name e).run catalog' =
      .ok found' ∧ Dependencies.names found' = Dependencies.names found :=
    Dependencies.expand_transfer (Nat.le_refl _) run (fun _ hmem => hmem) rfl agree
  exact ⟨store, found', run', same⟩

theorem Reads.transitive (h : Reads r catalog name e needs) (store : Store) :
    ∃ found, (Dependencies.transitive r store e).run catalog = .ok found ∧
      Dependencies.names found = needs := by
  obtain ⟨store', found, run, rfl⟩ := h
  exact Dependencies.expand_transfer (Nat.le_succ _) run (by simp) rfl (fun _ _ => rfl)

/-- No formula reads itself. -/
theorem Reads.not_mem (h : Reads r catalog name e needs) : name ∉ needs := by
  obtain ⟨store, found, run, rfl⟩ := h
  intro hmem
  rcases (Dependencies.expanded_of_ok run).closed name hmem with hnil | ⟨outside, -⟩
  · cases hnil
  · exact outside List.mem_cons_self

theorem Reads.ascending (h : Reads r catalog name e needs) : needs.Pairwise (· < ·) := by
  obtain ⟨store, found, run, rfl⟩ := h
  exact List.pairwise_map.2 ((Dependencies.expanded_of_ok run).ascending .nil)

theorem Reads.needsRow (h : Reads r catalog name e needs) (db : Database) :
    db.needsRow needs = needs.map (fun need => (need, db.formulas.id? need)) :=
  needsRow_of_ascending db h.ascending

/-- Every stored formula can be read, its needs are the names that it reads, and each of them is linked
    to the formula of its name. -/
structure Sound (r : Registry) (db : Database) : Prop where
  table : db.formulas.Kept
  reads : ∀ {name row}, db.formulas.row? name = some row → ∃ e, Expr.ofText row.text = .ok e ∧
    Reads r db.catalog name e (row.needs.map Prod.fst)
  links : ∀ {name row}, db.formulas.row? name = some row →
    ∀ need ∈ row.needs, need.2 = db.formulas.id? need.1

/-- The needs of a row have just been found. -/
def Renewed (r : Registry) (db : Database) (name : String) (row : FormulaRow) : Prop :=
  ∃ e needs, Expr.ofText row.text = .ok e ∧ Reads r db.catalog name e needs ∧
    row.needs = db.needsRow needs

/-- A row is the one that it was, and so is all that it reads. -/
def Untouched (db db' : Database) (name : String) (row : FormulaRow) : Prop :=
  ∃ old, db.formulas.row? name = some old ∧ row.text = old.text ∧ row.needs = old.needs ∧
    ∀ need ∈ old.needs, db'.catalog need.1 = db.catalog need.1 ∧
      db'.formulas.id? need.1 = db.formulas.id? need.1

/-- A write is sound that leaves every row untouched or finds its needs again. -/
theorem Sound.of_rows {db db' : Database} (h : Sound r db) (table : db'.formulas.Kept)
    (rows : ∀ {name row}, db'.formulas.row? name = some row →
      Renewed r db' name row ∨ Untouched db db' name row) : Sound r db' where
  table := table
  reads := by
    intro name row hrow
    rcases rows hrow with ⟨e, needs, read, reads, hneeds⟩ | ⟨old, hold, text, hneeds, same⟩
    · refine ⟨e, read, ?_⟩
      rw [hneeds, reads.needsRow, List.map_map]
      exact (List.map_id needs).symm ▸ reads
    · obtain ⟨e, read, reads⟩ := h.reads hold
      refine ⟨e, text ▸ read, ?_⟩
      rw [hneeds]
      refine reads.transfer (fun need hneed => ?_)
      obtain ⟨p, hp, rfl⟩ := List.mem_map.1 hneed
      exact (same p hp).1
  links := by
    intro name row hrow need hneed
    rcases rows hrow with ⟨e, needs, read, reads, hneeds⟩ | ⟨old, hold, text, hneeds, same⟩
    · rw [hneeds, reads.needsRow] at hneed
      obtain ⟨other, -, rfl⟩ := List.mem_map.1 hneed
      rfl
    · rw [hneeds] at hneed
      rw [h.links hold need hneed, (same need hneed).2]

/-- Only formulas count, not the settings. -/
theorem Sound.of_formulas {db db' : Database} (h : Sound r db) (same : db'.formulas = db.formulas) :
    Sound r db' := by
  refine h.of_rows (same ▸ h.table) (fun {name row} hrow => .inr ?_)
  rw [same] at hrow
  refine ⟨row, hrow, rfl, rfl, fun need _ => ⟨catalog_congr ?_, ?_⟩⟩
  · rw [same]
  · rw [same]

/-- A formula that needs a name is among its dependents. -/
theorem mem_dependents {db : Database} {row : FormulaRow} {need : String}
    (hrow : db.formulas.row? name = some row) (hneed : need ∈ row.needs.map Prod.fst) :
    name ∈ db.dependents need := by
  obtain ⟨entry, found, rfl⟩ := Option.map_eq_some_iff.1 hrow
  have hmem := Sorted.mem_of_get? found
  refine List.mem_map.2 ⟨_, List.mem_filter.2 ⟨hmem, ?_⟩, rfl⟩
  exact Sorted.contains_iff_mem.2 hneed

/-- Writing a formula is sound where its needs and those of its dependents have been found over it. -/
theorem Sound.registered {db : Database} (h : Sound r db) {w : FormulaWrite}
    {refreshed : List (String × List String)} (text : Expr.ofText w.text = .ok e)
    (reads : Reads r db.catalog w.name e w.needs)
    (renewed : ∀ p ∈ refreshed, ∃ tree,
      db.catalog.overlaid [(w.name, e)] p.1 = .ok (some tree) ∧
        Reads r (db.catalog.overlaid [(w.name, e)]) p.1 tree p.2)
    (covers : ∀ other ∈ db.dependents w.name, other ∈ refreshed.map Prod.fst) :
    Sound r (db.registered w refreshed) := by
  obtain ⟨table, ids⟩ := setNeedsAll_table refreshed (putFormula_table h.table w)
  have answers := catalog_registered db refreshed text
  refine h.of_rows table (fun {name row} hrow => ?_)
  rcases setNeedsAll_row? hrow with ⟨stale, hput⟩ | ⟨names, old, hmem, hput, rfl⟩
  · rw [putFormula_row?] at hput
    split at hput
    · rename_i heq
      cases hput
      subst heq
      refine .inl ⟨e, w.needs, text, reads.transfer (fun need hneed => ?_),
        (needsRow_congr ids w.needs).symm⟩
      rw [answers, Catalog.overlaid_single, if_neg]
      rintro rfl
      exact reads.not_mem hneed
    · refine .inr ⟨row, hput, rfl, rfl, fun need hneed => ?_⟩
      -- A formula that needs the one that was written would have new needs.
      have apart : need.1 ≠ w.name := by
        intro heq
        exact stale (covers name (mem_dependents hput (List.mem_map.2 ⟨need, hneed, heq⟩)))
      exact ⟨by rw [answers, Catalog.overlaid_single, if_neg apart],
        (ids need.1).trans (putFormula_id? db w apart)⟩
  · obtain ⟨tree, answer, reads'⟩ := renewed _ hmem
    obtain ⟨found, hfound, read⟩ := row?_of_catalog ((congrFun answers name).trans answer)
    rw [show _ = _ from hrow] at hfound
    cases hfound
    exact .inl ⟨tree, names, read, reads'.transfer (fun need _ => congrFun answers need),
      (needsRow_congr ids names).symm⟩

/-- Replacing formulas is sound where the needs of all of them and of their dependents have been found
    over the new trees. -/
theorem Sound.replaceFormulas {db : Database} (h : Sound r db) {changed : List (String × Expr)}
    {writes : List FormulaWrite} (stored : ∀ p ∈ changed, db.formulas.contains p.1 = true)
    (known : ∀ w ∈ writes, db.formulas.contains w.name = true)
    (renewed : ∀ w ∈ writes, ∃ tree, Expr.ofText w.text = .ok tree ∧
      db.catalog.overlaid changed w.name = .ok (some tree) ∧
        Reads r (db.catalog.overlaid changed) w.name tree w.needs)
    (covers : ∀ p ∈ changed, p.1 ∈ writes.map FormulaWrite.name ∧
      ∀ other ∈ db.dependents p.1, other ∈ writes.map FormulaWrite.name) :
    Sound r (db.replaceFormulas writes).2 := by
  obtain ⟨table, ids⟩ := replaceAll_table writes h.table
  have answers : (db.replaceFormulas writes).2.catalog = db.catalog.overlaid changed := by
    refine catalog_replaceFormulas h.table known (fun w hw => ?_) stored (fun p hp => (covers p hp).1)
    obtain ⟨tree, read, answer, -⟩ := renewed w hw
    exact ⟨tree, read, answer⟩
  rw [replaceFormulas_eq known] at answers ⊢
  refine h.of_rows table (fun {name row} hrow => ?_)
  rcases replaceAll_row? hrow with ⟨outside, hold⟩ | ⟨w, hw, rfl, text, -, needs⟩
  · refine .inr ⟨row, hold, rfl, rfl, fun need hneed => ⟨?_, ids need.1⟩⟩
    rw [answers, Catalog.overlaid_of_not_mem]
    intro hmem
    obtain ⟨p, hp, heq⟩ := List.mem_map.1 hmem
    exact outside ((covers p hp).2 name (mem_dependents hold (List.mem_map.2 ⟨need, hneed, heq.symm⟩)))
  · obtain ⟨tree, read, -, reads⟩ := renewed w hw
    exact .inl ⟨tree, w.needs, text ▸ read, reads.transfer (fun need _ => congrFun answers need),
      needs.trans (needsRow_congr ids w.needs).symm⟩

/-- Deleting a formula takes exactly the needs of its name out of every other row. -/
theorem Sound.needs_without {db : Database} (h : Sound r db) {id : Nat}
    (hid : db.formulas.id? name = some id) {other : String} {row : FormulaRow}
    (hrow : db.formulas.row? other = some row) :
    (row.without id).needs = row.needs.filter (fun need => need.1 ≠ name) := by
  refine List.filter_congr (fun need hneed => ?_)
  rw [decide_eq_decide]
  refine not_congr ?_
  rw [h.links hrow need hneed]
  exact ⟨fun heq => h.table.distinct heq hid, fun heq => heq ▸ hid⟩

/-- Deleting a formula is sound that no other formula needs. -/
theorem Sound.deleteFormula {db : Database} (h : Sound r db)
    (free : ∀ other, other ≠ name → name ∉ db.dependencies other) :
    Sound r (db.deleteFormula name).2 := by
  cases hid : db.formulas.id? name with
  | none => exact (deleteFormula_of_none hid).symm ▸ h
  | some id =>
      refine h.of_rows (deleteFormula_table h.table name) (fun {other row} hrow => .inr ?_)
      rw [deleteFormula_row? hid] at hrow
      split at hrow
      · cases hrow
      rename_i apart
      obtain ⟨old, hold, rfl⟩ := Option.map_eq_some_iff.1 hrow
      have others : ∀ need ∈ old.needs, need.1 ≠ name := by
        intro need hneed heq
        refine free other apart ?_
        rw [dependencies, hold]
        exact List.mem_map.2 ⟨need, hneed, heq⟩
      refine ⟨old, hold, rfl, ?_, fun need hneed => ⟨?_, ?_⟩⟩
      · rw [h.needs_without hid hold, List.filter_eq_self]
        exact fun need hneed => decide_eq_true (others need hneed)
      · rw [catalog_deleteFormula, if_neg (others need hneed)]
      · exact deleteFormula_id? db (others need hneed)

theorem Sound.setMetadata {db : Database} (h : Sound r db) (name : String) (metadata : Json) :
    Sound r (db.setMetadata name metadata).2 := by
  have table := h.table.modify name (fun row => { row with metadata := metadata.kept })
  refine h.of_rows table (fun {other row} hrow => .inr ?_)
  rw [setMetadata_row?] at hrow
  obtain ⟨old, hold, rfl⟩ := Option.map_eq_some_iff.1 hrow
  refine ⟨old, hold, ?_, ?_, fun need _ => ⟨?_, Table.id?_mapRows _ _ _⟩⟩
  · split <;> rfl
  · split <;> rfl
  · rw [catalog_setMetadata]

/-- A backup is restored as it was made. -/
theorem Sound.restore {db backup : Database} (h : Sound r backup) : Sound r (db.restore backup) :=
  h.of_formulas rfl

theorem Sound.create (r : Registry) : Sound r .create where
  table := .empty
  reads hrow := by cases hrow
  links hrow := by cases hrow

end SeriesLang.Database
