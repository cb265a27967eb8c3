import SeriesLang.Proofs.Database.Metadata
import SeriesLang.Proofs.Engine.Outcome
import SeriesLang.Proofs.Engine.Renamed
import SeriesLang.Proofs.Engine.Stored
import SeriesLang.Proofs.Query.Ends

/-! # What a renaming of references does

A renaming is refused where the new name is in use, and fails where a chain of formulas would close. If it is
done, every tree is the old one with the new name, and rows that need no new text keep theirs.
-/

namespace SeriesLang

/-- A catalog in whose formulas a series has another name. -/
def Catalog.swapped (catalog : Catalog) (old new : String) : Catalog :=
  fun name => (catalog name).map (Option.map (Expr.renameSeries old new))

namespace Database

variable {db db' : Database} {old new : String}

/-- What a renaming leaves that gives these names. -/
structure SwappedTo (db : Database) (old new : String) (names : List String) (db' : Database) : Prop where
  ascending : names.Pairwise (· < ·)
  readers : ∀ name, name ∈ names ↔ ∃ e, db.catalog name = .ok (some e) ∧ old ∈ e.seriesNames
  trees : ∀ name e, db.catalog name = .ok (some e) →
    ∃ e', db'.catalog name = .ok (some e') ∧ e.Swapped old new e'
  unread : old ≠ new → ∀ name e, db'.catalog name = .ok (some e) → old ∉ e.seriesNames
  ids : ∀ name, db'.formulas.id? name = db.formulas.id? name
  metadata : ∀ name, db'.metadata? name = db.metadata? name
  others : ∀ name, name ∉ names →
    (db'.formulas.row? name).map (fun row => (row.text, row.hash)) =
      (db.formulas.row? name).map (fun row => (row.text, row.hash))

theorem tree_of_swapped (same : db'.catalog = db.catalog.swapped old new) {name : String} {e : Expr}
    (stored : db.catalog name = .ok (some e)) :
    ∃ e', db'.catalog name = .ok (some e') ∧ e.Swapped old new e' := by
  rw [same, Catalog.swapped, stored]
  exact ⟨_, rfl, Expr.swapped_renameSeries old new e⟩

theorem unread_of_swapped (same : db'.catalog = db.catalog.swapped old new) (apart : old ≠ new)
    {name : String} {e : Expr} (stored : db'.catalog name = .ok (some e)) : old ∉ e.seriesNames := by
  rw [same] at stored
  obtain ⟨tree, -, renamed⟩ := ok_of_map stored
  obtain ⟨before, -, rfl⟩ := Option.map_eq_some_iff.1 renamed
  exact Expr.unread_renameSeries apart before

end Database

namespace Renaming

variable {r : Registry} {store : Store} {db : Database} {old new : String}
  {formulas : List (String × String × Expr)}

theorem readAll_ok (table : db.formulas.Kept) (readable : ∀ name, ∃ tree, db.catalog name = .ok tree) :
    ∃ formulas, readAll db = .ok formulas := by
  cases read : readAll db with
  | ok formulas => exact ⟨formulas, rfl⟩
  | error e =>
      obtain ⟨⟨name, entry⟩, hentry, failed⟩ := error_of_mapM read
      have stored : db.formulas.row? name = some entry.row := by
        rw [Table.row?, Table.find?, Sorted.get?_of_mem table.ascending hentry]
        rfl
      obtain ⟨tree, answer⟩ := readable name
      simp only [Database.catalog, stored] at answer
      obtain ⟨e, text, -⟩ := ok_of_map answer
      dsimp only at failed
      rw [text] at failed
      cases failed

theorem outcome_of_readAll (read : readAll db = .ok formulas) (r : Registry) (store : Store)
    (old new : String) : outcome r store db old new =
      if (!((readers new formulas).map Prod.fst).isEmpty) = true then
        .error (.renameConflict ((readers new formulas).map Prod.fst))
      else if (changes old new formulas).isEmpty = true then .ok ([], db)
      else ((plan r store db old new formulas).run db.catalog).map (fun writes =>
        ((changes old new formulas).map Prod.fst, (db.replaceFormulas (writes.filterMap id)).2)) := by
  rw [outcome, read]
  rfl

/-- A renaming that is done had nothing to do, or it was planned. -/
theorem done_of_outcome (read : readAll db = .ok formulas) {names : List String} {db' : Database}
    (h : outcome r store db old new = .ok (names, db')) :
    names = (changes old new formulas).map Prod.fst ∧
      (changes old new formulas = [] ∧ db' = db ∨
        ∃ writes, (plan r store db old new formulas).run db.catalog = .ok writes ∧
          db' = (db.replaceFormulas (writes.filterMap id)).2) := by
  rw [outcome_of_readAll read] at h
  obtain ⟨-, h⟩ := ok_of_else h
  split at h
  · rename_i idle
    rw [List.isEmpty_iff] at idle
    cases h
    exact ⟨by rw [idle]; rfl, .inl ⟨idle, rfl⟩⟩
  · obtain ⟨writes, planned, heq⟩ := ok_of_map h
    cases heq
    exact ⟨rfl, .inr ⟨writes, planned, rfl⟩⟩

/-- A conflict is told of exactly where the new name is read. -/
theorem conflict_iff (readable : ∀ name, ∃ tree, db.catalog name = .ok tree)
    (read : readAll db = .ok formulas) {conflicts : List String} :
    outcome r store db old new = .error (.renameConflict conflicts) ↔
      conflicts ≠ [] ∧ conflicts = (readers new formulas).map Prod.fst := by
  rw [outcome_of_readAll read]
  constructor
  · intro h
    split at h
    · rename_i taken
      cases h
      exact ⟨by simpa using taken, rfl⟩
    · split at h
      · cases h
      · rcases ((ends_plan _ _ _).run db.catalog).2 _ (error_of_map h) with own | ⟨name, failed⟩
        · cases own
        · obtain ⟨tree, answer⟩ := readable name
          cases answer.symm.trans failed
  · rintro ⟨taken, rfl⟩
    rw [if_pos]
    simpa using taken

theorem catalog_of_done (table : db.formulas.Kept) (read : readAll db = .ok formulas) {names : List String}
    {db' : Database} (h : outcome r store db old new = .ok (names, db')) :
    db'.catalog = db.catalog.swapped old new := by
  have laid : db.catalog.overlaid (changes old new formulas) = db.catalog.swapped old new :=
    funext (catalog_changes table read old new)
  obtain ⟨-, ⟨idle, rfl⟩ | ⟨writes, planned, rfl⟩⟩ := done_of_outcome read h
  · rw [← laid, idle]
    rfl
  · rw [(Database.Renames.ofPlan table read planned).catalog table, laid]

/-- A row that is written for its needs alone keeps its text and its hash. -/
theorem others_of_plan (inStep : db.InStep r) (read : readAll db = .ok formulas)
    {writes : List (Option FormulaWrite)}
    (planned : (plan r store db old new formulas).run db.catalog = .ok writes) {name : String}
    (other : name ∉ (changes old new formulas).map Prod.fst) :
    ((db.replaceFormulas (writes.filterMap id)).2.formulas.row? name).map (fun row => (row.text, row.hash)) =
      (db.formulas.row? name).map (fun row => (row.text, row.hash)) := by
  have renames := Database.Renames.ofPlan inStep.table read planned
  obtain ⟨-, ids⟩ := Database.replaceAll_table (writes.filterMap id) inStep.table
  rw [Database.replaceFormulas_eq renames.known]
  show (((writes.filterMap id).foldl Database.replaceFormula db).formulas.row? name).map _ = _
  cases hrow : ((writes.filterMap id).foldl Database.replaceFormula db).formulas.row? name with
  | none =>
      have absent : db.formulas.row? name = none := by
        rw [Table.row?_eq_none_iff, ← ids, ← Table.row?_eq_none_iff, hrow]
      rw [absent]
  | some row =>
      rcases Database.replaceAll_row? hrow with ⟨-, stored⟩ | ⟨w, hw, rfl, text, hash, -⟩
      · rw [stored]
      · cases hstored : db.formulas.row? w.name with
        | none =>
            rw [Table.row?_eq_none_iff, ← ids, ← Table.row?_eq_none_iff, hrow] at hstored
            cases hstored
        | some stored =>
            obtain ⟨_, run⟩ := writeFor_of_plan planned hw
            have kept : w.text = stored.text := text_writeFor inStep.table read run other hstored
            obtain ⟨tree, tells, -, same⟩ := inStep.rows hstored
            have hashed := renames.hashes w hw tree (kept ▸ tells)
            rw [Option.map_some, Option.map_some, text, hash, kept, hashed, same]

/-- Rows keep their ids and their metadata, and other ones all that tells of their trees. -/
theorem kept_of_done (inStep : db.InStep r) (read : readAll db = .ok formulas) {names : List String}
    {db' : Database} (h : outcome r store db old new = .ok (names, db')) :
    (∀ name, db'.formulas.id? name = db.formulas.id? name) ∧
    (∀ name, db'.metadata? name = db.metadata? name) ∧ ∀ name, name ∉ names →
      (db'.formulas.row? name).map (fun row => (row.text, row.hash)) =
        (db.formulas.row? name).map (fun row => (row.text, row.hash)) := by
  obtain ⟨rfl, ⟨-, rfl⟩ | ⟨writes, planned, rfl⟩⟩ := done_of_outcome read h
  · exact ⟨fun _ => rfl, fun _ => rfl, fun _ _ => rfl⟩
  · have renames := Database.Renames.ofPlan inStep.table read planned
    have untold := ((ends_plan _ _ _).run db.catalog).1 _ planned
    refine ⟨fun name => ?_, fun name => Database.metadata?_replaceFormulas db (fun w hw _ => untold w hw),
      fun name other => others_of_plan inStep read planned other⟩
    rw [Database.replaceFormulas_eq renames.known]
    exact (Database.replaceAll_table (writes.filterMap id) inStep.table).2 name

theorem swappedTo_of_done (inStep : db.InStep r) (read : readAll db = .ok formulas) {names : List String}
    {db' : Database} (h : outcome r store db old new = .ok (names, db')) :
    db.SwappedTo old new names db' := by
  have same := catalog_of_done inStep.table read h
  obtain ⟨ids, metadata, others⟩ := kept_of_done inStep read h
  obtain ⟨ascending, members⟩ := mem_readers inStep.table read old
  have names' : names = (readers old formulas).map Prod.fst := by
    rw [(done_of_outcome read h).1, changes, List.map_map]
    rfl
  rw [← names'] at ascending members
  exact ⟨ascending, members, fun _ _ stored => Database.tree_of_swapped same stored,
    fun apart _ _ stored => Database.unread_of_swapped same apart stored, ids, metadata, others⟩

/-- Where a chain of formulas would close, nothing is done. -/
theorem acyclic_of_done (acyclic : db.Acyclic r) (read : readAll db = .ok formulas) {names : List String}
    {db' : Database} (h : outcome r store db old new = .ok (names, db')) :
    (db.catalog.swapped old new).Acyclic r := by
  rw [← catalog_of_done acyclic.table read h]
  obtain ⟨-, ⟨-, rfl⟩ | ⟨writes, planned, rfl⟩⟩ := done_of_outcome read h
  · exact acyclic.chains
  · exact (acyclic.change (.rename (.ofPlan acyclic.table read planned))).chains

end Renaming

namespace Shared

variable {r : Registry} {c : Shared} {n : Nat}

end Shared

end SeriesLang
