import SeriesLang.Engine.Rename
import SeriesLang.Proofs.Database.Edges
import SeriesLang.Proofs.Expr.Rename

/-! # Changes of formulas

What registering and renaming make of a database. The plan of a write says of every formula that is
written what it reads in the catalog with all of the new trees laid over it.
-/

namespace SeriesLang

namespace Registration

variable {r : Registry} {store : Store} {catalog : Catalog} {name : String} {e : Expr}

theorem reads_of_needs {needs : List String}
    (h : (Registration.needs r store name e).run catalog = .ok needs) :
    Database.Reads r catalog name e needs := by
  obtain ⟨found, run, heq⟩ := Query.ok_of_run_bind h
  cases heq
  exact ⟨store, found, run, rfl⟩

theorem dependentNeeds_ok {result : Option (String × List String)}
    (h : (dependentNeeds r store name).run catalog = .ok result) :
    (catalog name = .ok none ∧ result = none) ∨
      ∃ tree needs, catalog name = .ok (some tree) ∧ result = some (name, needs) ∧
        Database.Reads r catalog name tree needs := by
  obtain ⟨answer, found, h⟩ := Query.ok_of_run_bind h
  rw [Query.run_formula] at found
  cases answer with
  | none =>
      cases h
      exact .inl ⟨found, rfl⟩
  | some tree =>
      obtain ⟨needs, run, heq⟩ := Query.ok_of_run_bind h
      cases heq
      exact .inr ⟨tree, needs, found, rfl, reads_of_needs run⟩

/-- What is planned for a formula and for those that depend on it. -/
theorem plan_ok {text : String} {options : RegisterOptions} {stored : Option Json}
    {dependents : List String} {w : FormulaWrite} {refreshed : List (String × List String)}
    (h : (plan r store name text e options stored dependents).run catalog = .ok (w, refreshed)) :
    w.name = name ∧ w.text = text ∧ Database.Reads r catalog name e w.needs ∧
      (∀ p ∈ refreshed, ∃ tree, catalog.overlaid [(name, e)] p.1 = .ok (some tree) ∧
        Database.Reads r (catalog.overlaid [(name, e)]) p.1 tree p.2) ∧
      (∀ p ∈ refreshed, p.1 ∈ dependents) ∧
      (∀ other ∈ dependents, catalog.overlaid [(name, e)] other = .ok none ∨
        other ∈ refreshed.map Prod.fst) ∧ w.hash = e.contentHash := by
  obtain ⟨found, run, h⟩ := Query.ok_of_run_bind h
  -- The check for unknown names and the derived metadata do not matter for the needs.
  have h : ((Dependencies.firstInfo store e).bind fun derived =>
      ((Query.forEach (dependentNeeds r store) dependents).overlay [(name, e)]).bind
        fun refreshed => Query.done (
          { name, text, hash := e.contentHash
            metadata := some (metadata stored (derived.getD {}) options.metadata)
            needs := found.names : FormulaWrite }, refreshed.filterMap id)).run catalog =
      .ok (w, refreshed) := by
    split at h
    · obtain ⟨_, -, h⟩ := Query.ok_of_run_bind h
      exact h
    · exact h
  obtain ⟨derived, -, h⟩ := Query.ok_of_run_bind h
  obtain ⟨results, planned, h⟩ := Query.ok_of_run_bind h
  cases h
  rw [Query.run_overlay, Query.run_forEach] at planned
  obtain ⟨origin, reach⟩ := mem_of_mapM planned
  have source : ∀ p ∈ results.filterMap id, ∃ tree, p.1 ∈ dependents ∧
      catalog.overlaid [(name, e)] p.1 = .ok (some tree) ∧
        Database.Reads r (catalog.overlaid [(name, e)]) p.1 tree p.2 := by
    intro p hp
    obtain ⟨result, hresult, heq⟩ := List.mem_filterMap.1 hp
    cases heq
    obtain ⟨other, hother, h⟩ := origin _ hresult
    rcases dependentNeeds_ok h with ⟨-, none⟩ | ⟨tree, needs, answer, same, reads⟩
    · cases none
    · cases same
      exact ⟨tree, hother, answer, reads⟩
  refine ⟨rfl, rfl, ⟨store, found, run, rfl⟩, fun p hp => ?_, fun p hp => ?_, fun other hother => ?_, rfl⟩
  · obtain ⟨tree, -, answer, reads⟩ := source p hp
    exact ⟨tree, answer, reads⟩
  · obtain ⟨_, hother, -⟩ := source p hp
    exact hother
  · obtain ⟨result, hresult, h⟩ := reach other hother
    rcases dependentNeeds_ok h with ⟨absent, -⟩ | ⟨tree, needs, -, rfl, -⟩
    · exact .inl absent
    · exact .inr (List.mem_map.2 ⟨_, List.mem_filterMap.2 ⟨_, hresult, rfl⟩, rfl⟩)

/-- A formula that no other one needs is planned where all names that it reads are known. -/
theorem plan_done {text : String} {options : RegisterOptions} {stored : Option Json} {found : Dependencies}
    {info : Option SeriesMeta} (run : (Dependencies.ofFormula r store name e).run catalog = .ok found)
    (known : found.rejectUnknown = .ok ())
    (derived : (Dependencies.firstInfo store e).run catalog = .ok info) :
    ∃ w, (plan r store name text e options stored []).run catalog = .ok (w, []) ∧ w.name = name ∧
      w.text = text ∧ w.needs = found.names := by
  refine ⟨⟨name, text, e.contentHash, some (metadata stored (info.getD {}) options.metadata),
    found.names⟩, (Query.run_bind_ok run).trans ?_, rfl, rfl, rfl⟩
  split
  · refine (Query.run_ofExcept_bind known _).trans ?_
    exact (Query.run_bind_ok derived).trans rfl
  · exact (Query.run_bind_ok derived).trans rfl

end Registration

namespace Renaming

variable {r : Registry} {store : Store} {catalog : Catalog} {name : String}

theorem mem_readAll {db : Database} (h : db.formulas.Kept)
    {formulas : List (String × String × Expr)} (read : readAll db = .ok formulas) :
    (∀ p ∈ formulas, ∃ row, db.formulas.row? p.1 = some row ∧ row.text = p.2.1 ∧
      Expr.ofText row.text = .ok p.2.2) ∧
    ∀ {name row}, db.formulas.row? name = some row → ∃ e, (name, row.text, e) ∈ formulas := by
  obtain ⟨origin, reach⟩ := mem_of_mapM read
  refine ⟨fun p hp => ?_, fun {name row} hrow => ?_⟩
  · obtain ⟨⟨key, entry⟩, hentry, h'⟩ := origin p hp
    obtain ⟨e, text, heq⟩ := ok_of_bind h'
    cases heq
    have found := Sorted.get?_of_mem h.ascending hentry
    exact ⟨entry.row, by rw [Table.row?, Table.find?, found]; rfl, rfl, text⟩
  · obtain ⟨entry, found, rfl⟩ := Option.map_eq_some_iff.1 hrow
    obtain ⟨p, hp, h'⟩ := reach _ (Sorted.mem_of_get? found)
    obtain ⟨e, -, heq⟩ := ok_of_bind h'
    cases heq
    exact ⟨e, hp⟩

/-- The formulas of the catalog are read, each with its tree. -/
theorem catalog_iff_mem_readAll {db : Database} (h : db.formulas.Kept)
    {formulas : List (String × String × Expr)} (read : readAll db = .ok formulas) {tree : Expr} :
    db.catalog name = .ok (some tree) ↔ ∃ text, (name, text, tree) ∈ formulas := by
  obtain ⟨rows, listed⟩ := mem_readAll h read
  constructor
  · intro stored
    obtain ⟨row, found, text⟩ := Database.row?_of_catalog stored
    obtain ⟨e, hmem⟩ := listed found
    obtain ⟨other, again, -, text'⟩ := rows _ hmem
    cases found.symm.trans again
    cases text.symm.trans text'
    exact ⟨_, hmem⟩
  · rintro ⟨text, hmem⟩
    obtain ⟨row, found, -, tree⟩ := rows _ hmem
    exact Database.catalog_of_row? found tree

/-- Formulas are read in the order in which they are stored. -/
theorem ascending_readAll {db : Database} (h : db.formulas.Kept)
    {formulas : List (String × String × Expr)} (read : readAll db = .ok formulas) :
    (formulas.map Prod.fst).Pairwise (· < ·) := by
  rw [map_of_mapM (k := Prod.fst) read, List.pairwise_map]
  · exact h.ascending
  · rintro ⟨key, entry⟩ p h'
    obtain ⟨e, -, heq⟩ := ok_of_bind h'
    cases heq
    rfl

/-- The formulas that read a series are found, in order. -/
theorem mem_readers {db : Database} (h : db.formulas.Kept) {formulas : List (String × String × Expr)}
    (read : readAll db = .ok formulas) (series : String) :
    ((readers series formulas).map Prod.fst).Pairwise (· < ·) ∧
      ∀ name, name ∈ (readers series formulas).map Prod.fst ↔
        ∃ e, db.catalog name = .ok (some e) ∧ series ∈ e.seriesNames := by
  refine ⟨(ascending_readAll h read).sublist (List.filter_sublist.map _), fun name => ?_⟩
  constructor
  · intro hname
    obtain ⟨⟨_, text, e⟩, hmem, rfl⟩ := List.mem_map.1 hname
    obtain ⟨hmem, reads⟩ := List.mem_filter.1 hmem
    exact ⟨e, (catalog_iff_mem_readAll h read).2 ⟨text, hmem⟩, List.contains_iff_mem.1 reads⟩
  · rintro ⟨e, stored, reads⟩
    obtain ⟨text, hmem⟩ := (catalog_iff_mem_readAll h read).1 stored
    exact List.mem_map.2 ⟨_, List.mem_filter.2 ⟨hmem, List.contains_iff_mem.2 reads⟩, rfl⟩

/-- The text that was read for a formula is the one that is stored. -/
theorem text_of_readAll {db : Database} (h : db.formulas.Kept)
    {formulas : List (String × String × Expr)} (read : readAll db = .ok formulas) {row : FormulaRow}
    (stored : db.formulas.row? name = some row) :
    Sorted.get? name (formulas.map (fun (name, text, _) => (name, text))) = some row.text := by
  obtain ⟨rows, listed⟩ := mem_readAll h read
  obtain ⟨e, hmem⟩ := listed stored
  have known : Sorted.get? name (formulas.map (fun (name, text, _) => (name, text))) ≠ none :=
    fun absent => Sorted.get?_eq_none_iff.1 absent (name, row.text) (List.mem_map.2 ⟨_, hmem, rfl⟩) rfl
  obtain ⟨text, found⟩ := Option.ne_none_iff_exists'.1 known
  obtain ⟨⟨_, _, e⟩, hmem, same⟩ := List.mem_map.1 (Sorted.mem_of_get? found)
  cases same
  obtain ⟨other, again, same, -⟩ := rows _ hmem
  cases stored.symm.trans again
  rw [found, same]

theorem mem_foldl_put {name : String} (names : List String) (acc : List (String × Unit))
    (h : name ∈ names ∨ name ∈ acc.map Prod.fst) :
    name ∈ (names.foldl (fun acc name => Sorted.put name () acc) acc).map Prod.fst := by
  induction names generalizing acc with
  | nil =>
      rcases h with h | h
      · cases h
      · exact h
  | cons other names ih =>
      refine ih _ ?_
      rw [← Sorted.contains_iff_mem, Sorted.contains_put, Bool.or_eq_true, decide_eq_true_eq,
        Sorted.contains_iff_mem]
      rcases h with h | h
      · rcases List.mem_cons.1 h with rfl | h
        · exact .inr (.inl rfl)
        · exact .inl h
      · exact .inr (.inr h)

/-- Changed formulas and those that depend on them are affected. -/
theorem mem_affected {db : Database} {changed : List (String × Expr)} {p : String × Expr}
    (hp : p ∈ changed) (h : name = p.1 ∨ name ∈ db.dependents p.1) : name ∈ affected db changed := by
  refine mem_foldl_put _ [] (.inl (List.mem_flatMap.2 ⟨p, hp, ?_⟩))
  rcases h with rfl | h
  · exact List.mem_cons_self
  · exact List.mem_cons_of_mem _ h

theorem writeFor_ok {texts : List (String × String)} {changed : List (String × Expr)}
    {result : Option FormulaWrite}
    (h : (writeFor r store texts changed name).run catalog = .ok result) :
    (catalog name = .ok none ∧ result = none) ∨
      ∃ tree w, catalog name = .ok (some tree) ∧ result = some w ∧ w.name = name ∧
        w.text = (if Sorted.contains name changed then tree.canonical
          else (Sorted.get? name texts).getD tree.canonical) ∧
        Database.Reads r catalog name tree w.needs ∧ w.hash = tree.contentHash := by
  obtain ⟨answer, found, h⟩ := Query.ok_of_run_bind h
  rw [Query.run_formula] at found
  cases answer with
  | none =>
      cases h
      exact .inl ⟨found, rfl⟩
  | some tree =>
      obtain ⟨needs, run, heq⟩ := Query.ok_of_run_bind h
      cases heq
      exact .inr ⟨tree, _, found, rfl, rfl, rfl, Registration.reads_of_needs run, rfl⟩

/-- The trees that change when a series is renamed. -/
def changes (old new : String) (formulas : List (String × String × Expr)) : List (String × Expr) :=
  (readers old formulas).map (fun (name, _, e) => (name, e.renameSeries old new))

theorem mem_changes {old new : String} {formulas : List (String × String × Expr)} {p : String × Expr}
    (h : p ∈ changes old new formulas) :
    ∃ q ∈ formulas, q.1 = p.1 ∧ p.2 = q.2.2.renameSeries old new := by
  obtain ⟨q, hq, rfl⟩ := List.mem_map.1 h
  exact ⟨q, (List.mem_filter.1 hq).1, rfl, rfl⟩

/-- Trees change that are stored. -/
theorem stored_of_changes {db : Database} (h : db.formulas.Kept) {old new : String}
    {formulas : List (String × String × Expr)} (read : readAll db = .ok formulas) {p : String × Expr}
    (hp : p ∈ changes old new formulas) :
    ∃ e, db.catalog p.1 = .ok (some e) ∧ p.2 = e.renameSeries old new := by
  obtain ⟨⟨_, text, e⟩, hmem, rfl, tree⟩ := mem_changes hp
  exact ⟨e, (catalog_iff_mem_readAll h read).2 ⟨text, hmem⟩, tree⟩

/-- A write has a text of its tree, be it a new tree or the one that is stored. -/
theorem ofText_writeFor {db : Database} (h : db.formulas.Kept) {old new : String}
    {formulas : List (String × String × Expr)} (read : readAll db = .ok formulas) {w : FormulaWrite}
    (run : (writeFor r store (formulas.map (fun (name, text, _) => (name, text)))
      (changes old new formulas) name).run (db.catalog.overlaid (changes old new formulas)) =
        .ok (some w)) : ∃ tree, Expr.ofText w.text = .ok tree ∧
      (db.catalog.overlaid (changes old new formulas) w.name = .ok (some tree) ∧
        Database.Reads r (db.catalog.overlaid (changes old new formulas)) w.name tree w.needs) ∧
        w.hash = tree.contentHash := by
  rcases writeFor_ok run with ⟨-, absent⟩ | ⟨tree, _, answer, same, rfl, text, reads, hash⟩
  · cases absent
  cases same
  refine ⟨tree, ?_, ⟨answer, reads⟩, hash⟩
  rw [text, Sorted.contains_eq_isSome]
  unfold Catalog.overlaid at answer
  cases hget : Sorted.get? w.name (changes old new formulas) with
  | some changed =>
      rw [hget] at answer
      cases answer
      obtain ⟨q, hq, -, rfl⟩ := mem_changes (Sorted.mem_of_get? hget)
      obtain ⟨row, -, -, text⟩ := (mem_readAll h read).1 q hq
      exact Expr.ofText_canonical_renameSeries text old new
  | none =>
      rw [hget] at answer
      obtain ⟨row, stored, tree⟩ := Database.row?_of_catalog answer
      rw [text_of_readAll h read stored]
      exact tree

/-- A formula that does not change itself is written with the text that is stored. -/
theorem text_writeFor {db : Database} (h : db.formulas.Kept) {formulas : List (String × String × Expr)}
    (read : readAll db = .ok formulas) {changed : List (String × Expr)} {w : FormulaWrite}
    (run : (writeFor r store (formulas.map (fun (name, text, _) => (name, text))) changed name).run
      catalog = .ok (some w)) (unchanged : w.name ∉ changed.map Prod.fst) {row : FormulaRow}
    (stored : db.formulas.row? w.name = some row) : w.text = row.text := by
  rcases writeFor_ok run with ⟨-, absent⟩ | ⟨tree, _, -, same, rfl, text, -⟩
  · cases absent
  cases same
  rw [text, if_neg, text_of_readAll h read stored, Option.getD_some]
  rw [Sorted.contains_iff_mem]
  exact unchanged

/-- What is to be written when a series is renamed. -/
def plan (r : Registry) (store : Store) (db : Database) (old new : String)
    (formulas : List (String × String × Expr)) : Query (List (Option FormulaWrite)) :=
  (Query.forEach
    (writeFor r store (formulas.map (fun (name, text, _) => (name, text))) (changes old new formulas))
    (affected db (changes old new formulas))).overlay (changes old new formulas)

/-- Each planned write was found for one formula. -/
theorem writeFor_of_plan {db : Database} {old new : String} {formulas : List (String × String × Expr)}
    {writes : List (Option FormulaWrite)}
    (planned : (plan r store db old new formulas).run db.catalog = .ok writes) {w : FormulaWrite}
    (hw : w ∈ writes.filterMap id) : ∃ name,
      (writeFor r store (formulas.map (fun (name, text, _) => (name, text)))
        (changes old new formulas) name).run (db.catalog.overlaid (changes old new formulas)) =
          .ok (some w) := by
  rw [plan, Query.run_overlay, Query.run_forEach] at planned
  obtain ⟨result, hresult, heq⟩ := List.mem_filterMap.1 hw
  cases heq
  obtain ⟨name, -, run⟩ := (mem_of_mapM planned).1 _ hresult
  exact ⟨name, run⟩

end Renaming

namespace Database

variable {r : Registry} {name : String} {e : Expr}

theorem row?_of_mem_dependents {db : Database} (h : db.formulas.Kept) {other : String}
    (hmem : other ∈ db.dependents name) : ∃ row, db.formulas.row? other = some row := by
  obtain ⟨⟨key, entry⟩, hentry, rfl⟩ := List.mem_map.1 hmem
  have found := Sorted.get?_of_mem h.ascending (List.mem_filter.1 hentry).1
  exact ⟨entry.row, by rw [Table.row?, Table.find?, found]; rfl⟩

theorem writeFormula_ok {db db' : Database} {w : FormulaWrite} {update : Bool}
    {refreshed : List (String × List String)} {resolvedAt : Option Int} {id : Nat}
    (h : db.writeFormula w update refreshed resolvedAt = .ok (id, db')) :
    db' = db.registered w refreshed := by
  obtain ⟨_, -, h⟩ := ok_of_bind h
  split at h
  · cases h
  · cases h
    rfl

/-- What is written where a series is renamed: the changed trees are laid over the catalog, and with every
    formula that is written it was found what it reads. -/
structure Renames (r : Registry) (db : Database) (old new : String) (changed : List (String × Expr))
    (writes : List FormulaWrite) : Prop where
  origin : ∀ p ∈ changed, ∃ e, db.catalog p.1 = .ok (some e) ∧ p.2 = e.renameSeries old new
  known : ∀ w ∈ writes, db.formulas.contains w.name = true
  renewed : ∀ w ∈ writes, ∃ tree, Expr.ofText w.text = .ok tree ∧
    db.catalog.overlaid changed w.name = .ok (some tree) ∧
      Reads r (db.catalog.overlaid changed) w.name tree w.needs
  hashes : ∀ w ∈ writes, ∀ tree, Expr.ofText w.text = .ok tree → w.hash = tree.contentHash
  covers : ∀ p ∈ changed, p.1 ∈ writes.map FormulaWrite.name ∧
    ∀ other ∈ db.dependents p.1, other ∈ writes.map FormulaWrite.name

theorem contains_of_catalog {db : Database} (h : db.catalog name = .ok (some e)) :
    db.formulas.contains name = true := by
  obtain ⟨row, hrow, -⟩ := row?_of_catalog h
  exact Table.contains_of_row? hrow

theorem Renames.stored {db : Database} {old new : String} {changed : List (String × Expr)}
    {writes : List FormulaWrite} (h : Renames r db old new changed writes) :
    ∀ p ∈ changed, db.formulas.contains p.1 = true := by
  intro p hp
  obtain ⟨e, answer, -⟩ := h.origin p hp
  exact contains_of_catalog answer

theorem Renames.catalog {db : Database} {old new : String} {changed : List (String × Expr)}
    {writes : List FormulaWrite} (h : Renames r db old new changed writes) (table : db.formulas.Kept) :
    (db.replaceFormulas writes).2.catalog = db.catalog.overlaid changed := by
  refine catalog_replaceFormulas table h.known (fun w hw => ?_) h.stored (fun p hp => (h.covers p hp).1)
  obtain ⟨tree, read, answer, -⟩ := h.renewed w hw
  exact ⟨tree, read, answer⟩

/-- How registering and renaming change the formulas: the trees that are written are laid over the
    catalog, and with every one of them it was found what it reads. -/
inductive Change (r : Registry) (db : Database) : Database → Prop
  | register {e : Expr} {w : FormulaWrite} {refreshed : List (String × List String)}
      (text : Expr.ofText w.text = .ok e) (checked : r.checkTree e = .ok ())
      (hash : w.hash = e.contentHash) (reads : Reads r db.catalog w.name e w.needs)
      (renewed : ∀ p ∈ refreshed, ∃ tree,
        db.catalog.overlaid [(w.name, e)] p.1 = .ok (some tree) ∧
          Reads r (db.catalog.overlaid [(w.name, e)]) p.1 tree p.2)
      (covers : ∀ other ∈ db.dependents w.name,
        db.catalog.overlaid [(w.name, e)] other = .ok none ∨ other ∈ refreshed.map Prod.fst) :
      Change r db (db.registered w refreshed)
  | rename {old new : String} {changed : List (String × Expr)} {writes : List FormulaWrite}
      (renames : Renames r db old new changed writes) : Change r db (db.replaceFormulas writes).2

theorem Change.table {db db' : Database} (h : Change r db db') (kept : db.formulas.Kept) :
    db'.formulas.Kept := by
  cases h with
  | register => exact registered_table kept _ _
  | rename renames =>
      rw [replaceFormulas_eq renames.known]
      exact (replaceAll_table _ kept).1

/-- A formula is registered as it was planned. -/
theorem Change.ofPlan {db : Database} {store : Store} {text : String} {options : RegisterOptions}
    {stored : Option Json} {w : FormulaWrite} {refreshed : List (String × List String)}
    (read : Expr.ofText text = .ok e) (checked : r.checkTree e = .ok ())
    (planned : (Registration.plan r store name text e options stored (db.dependents name)).run
      db.catalog = .ok (w, refreshed)) : Change r db (db.registered w refreshed) := by
  obtain ⟨rfl, rfl, reads, renewed, -, covers, hash⟩ := Registration.plan_ok planned
  exact .register read checked hash reads renewed covers

/-- A series is renamed as it was planned, in every formula that reads it. -/
theorem Renames.ofPlan {db : Database} (h : db.formulas.Kept) {store : Store} {old new : String}
    {formulas : List (String × String × Expr)} {writes : List (Option FormulaWrite)}
    (read : Renaming.readAll db = .ok formulas)
    (planned : (Renaming.plan r store db old new formulas).run db.catalog = .ok writes) :
    Renames r db old new (Renaming.changes old new formulas) (writes.filterMap id) := by
  have written : ∀ w ∈ writes.filterMap id, ∃ tree, Expr.ofText w.text = .ok tree ∧
      (db.catalog.overlaid (Renaming.changes old new formulas) w.name = .ok (some tree) ∧
        Reads r (db.catalog.overlaid (Renaming.changes old new formulas)) w.name tree w.needs) ∧
          w.hash = tree.contentHash := by
    intro w hw
    obtain ⟨name, run⟩ := Renaming.writeFor_of_plan planned hw
    exact Renaming.ofText_writeFor h read run
  rw [Renaming.plan, Query.run_overlay, Query.run_forEach] at planned
  obtain ⟨-, reach⟩ := mem_of_mapM planned
  have stored : ∀ p ∈ Renaming.changes old new formulas, ∃ e, db.catalog p.1 = .ok (some e) ∧
      p.2 = e.renameSeries old new := fun _ hp => Renaming.stored_of_changes h read hp
  have reached : ∀ {name e}, db.catalog name = .ok (some e) →
      name ∈ Renaming.affected db (Renaming.changes old new formulas) →
      name ∈ (writes.filterMap id).map FormulaWrite.name := by
    intro name e answer hname
    obtain ⟨result, hresult, run⟩ := reach name hname
    rcases Renaming.writeFor_ok run with ⟨absent, -⟩ | ⟨tree, w, -, rfl, rfl, -⟩
    · exact absurd absent (Catalog.overlaid_ne_none answer)
    · exact List.mem_map.2 ⟨w, List.mem_filterMap.2 ⟨_, hresult, rfl⟩, rfl⟩
  refine ⟨stored, fun w hw => ?_, fun w hw => ?_, fun w hw tree read => ?_,
    fun p hp => ⟨?_, fun other hother => ?_⟩⟩
  · by_cases mine : w.name ∈ (Renaming.changes old new formulas).map Prod.fst
    · obtain ⟨p, hp, heq⟩ := List.mem_map.1 mine
      obtain ⟨e, answer, -⟩ := stored p hp
      exact heq ▸ contains_of_catalog answer
    · obtain ⟨tree, -, ⟨answer, -⟩, -⟩ := written w hw
      rw [Catalog.overlaid_of_not_mem mine] at answer
      exact contains_of_catalog answer
  · obtain ⟨tree, read, found, -⟩ := written w hw
    exact ⟨tree, read, found⟩
  · obtain ⟨other, same, -, hash⟩ := written w hw
    cases read.symm.trans same
    exact hash
  · obtain ⟨e, answer, -⟩ := stored p hp
    exact reached answer (Renaming.mem_affected hp (.inl rfl))
  · obtain ⟨row, found⟩ := row?_of_mem_dependents h hother
    obtain ⟨e, listed⟩ := (Renaming.mem_readAll h read).2 found
    exact reached ((Renaming.catalog_iff_mem_readAll h read).2 ⟨_, listed⟩)
      (Renaming.mem_affected hp (.inr hother))

/-- A property of databases is kept by every kind of write, where the writes are planned for these
    operators. -/
structure Lasts (r : Registry) (I : Database → Prop) : Prop where
  table : ∀ {db}, I db → db.formulas.Kept
  change : ∀ {db db'}, I db → Change r db db' → I db'
  delete : ∀ {db}, I db → ∀ name, I (db.deleteFormula name).2
  metadata : ∀ {db}, I db → ∀ name json, I (db.setMetadata name json).2
  restore : ∀ {backup}, I backup → ∀ db : Database, I (db.restore backup)

end Database

end SeriesLang
