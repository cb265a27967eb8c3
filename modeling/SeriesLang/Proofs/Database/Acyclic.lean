import Mathlib.Logic.Relation
import SeriesLang.Proofs.Database.Change

/-! # Chains of formulas

Formulas never lead back to themselves. A new chain that does would go through a formula that was just
written, but all that such a formula leads to was found when it was written, and it was not found itself.
-/

namespace SeriesLang

namespace Catalog

variable {r : Registry} {catalog : Catalog} {name other : String} {e : Expr}

/-- A formula reads another one. -/
def Leads (r : Registry) (catalog : Catalog) (name other : String) : Prop :=
  ∃ e tree, catalog name = .ok (some e) ∧ other ∈ r.references e ∧ catalog other = .ok (some tree)

/-- No formula leads back to itself. -/
def Acyclic (r : Registry) (catalog : Catalog) : Prop :=
  ∀ name, ¬ Relation.TransGen (Leads r catalog) name name

/-- All that a formula leads to is among its needs. -/
theorem mem_of_leads {needs : List String} (reads : Database.Reads r catalog name e needs)
    (known : catalog name = .ok (some e)) (path : Relation.TransGen (Leads r catalog) name other) :
    other ∈ needs := by
  obtain ⟨store, found, run, rfl⟩ := reads
  have expanded := Dependencies.expanded_of_ok run
  induction path with
  | single edge =>
      obtain ⟨tree, -, answer, mem, -⟩ := edge
      rw [known] at answer
      cases answer
      exact (expanded.reads _ mem).1
  | tail _ edge ih =>
      obtain ⟨tree, -, answer, mem, -⟩ := edge
      rcases expanded.closed _ ih with none | ⟨-, closed⟩
      · cases none
      · exact closed tree answer _ mem

/-- A formula whose needs were found does not lead back to itself. -/
theorem not_leads_self {needs : List String} (reads : Database.Reads r catalog name e needs)
    (known : catalog name = .ok (some e)) : ¬ Relation.TransGen (Leads r catalog) name name :=
  fun path => reads.not_mem (mem_of_leads reads known path)

/-- With fewer formulas there are fewer chains. -/
theorem Acyclic.mono {catalog' : Catalog} (h : Acyclic r catalog)
    (fewer : ∀ {name e}, catalog' name = .ok (some e) → catalog name = .ok (some e)) :
    Acyclic r catalog' := by
  have edges : Leads r catalog' ≤ Leads r catalog := by
    rintro a b ⟨e, tree, first, mem, second⟩
    exact ⟨e, tree, fewer first, mem, fewer second⟩
  exact fun name path => h name (Relation.TransGen.mono edges _ _ path)

variable {changed : List (String × Expr)}

/-- A chain over a catalog with new formulas is one without them, or it goes through one of them. -/
theorem leads_overlaid (path : Relation.TransGen (Leads r (catalog.overlaid changed)) name other) :
    Relation.TransGen (Leads r catalog) name other ∨ ∃ new ∈ changed.map Prod.fst,
      Relation.ReflTransGen (Leads r (catalog.overlaid changed)) name new ∧
        Relation.ReflTransGen (Leads r (catalog.overlaid changed)) new other := by
  have edge : ∀ {a b}, Leads r (catalog.overlaid changed) a b → a ∉ changed.map Prod.fst →
      b ∉ changed.map Prod.fst → Leads r catalog a b := by
    rintro a b ⟨e, tree, first, mem, second⟩ oldA oldB
    rw [overlaid_of_not_mem oldA] at first
    rw [overlaid_of_not_mem oldB] at second
    exact ⟨e, tree, first, mem, second⟩
  induction path with
  | single step =>
      by_cases newA : name ∈ changed.map Prod.fst
      · exact .inr ⟨_, newA, .refl, .single step⟩
      · rename_i b
        by_cases newB : b ∈ changed.map Prod.fst
        · exact .inr ⟨b, newB, .single step, .refl⟩
        · exact .inl (.single (edge step newA newB))
  | tail before step ih =>
      rename_i b c
      by_cases newC : c ∈ changed.map Prod.fst
      · exact .inr ⟨c, newC, before.to_reflTransGen.tail step, .refl⟩
      · rcases ih with old | ⟨new, hnew, first, second⟩
        · by_cases newB : b ∈ changed.map Prod.fst
          · exact .inr ⟨b, newB, before.to_reflTransGen, .single step⟩
          · exact .inl (old.tail (edge step newB newC))
        · exact .inr ⟨new, hnew, first, second.tail step⟩

/-- New formulas lead back to nothing if the needs of each of them were found among the new ones. -/
theorem Acyclic.overlaid (h : Acyclic r catalog)
    (reads : ∀ name tree, Sorted.get? name changed = some tree →
      ∃ needs, Database.Reads r (catalog.overlaid changed) name tree needs) :
    Acyclic r (catalog.overlaid changed) := by
  intro name path
  rcases leads_overlaid path with old | ⟨new, hnew, first, second⟩
  · exact h name old
  · obtain ⟨tree, found⟩ : ∃ tree, Sorted.get? new changed = some tree := by
      rw [← Option.ne_none_iff_exists']
      intro absent
      obtain ⟨p, hp, rfl⟩ := List.mem_map.1 hnew
      exact Sorted.get?_eq_none_iff.1 absent p hp rfl
    obtain ⟨needs, reads⟩ := reads new tree found
    have known : catalog.overlaid changed new = .ok (some tree) := by
      rw [Catalog.overlaid, found]
    exact not_leads_self reads known (Relation.TransGen.trans_right second (path.trans_left first))

end Catalog

namespace Database

variable {r : Registry} {db db' : Database}

/-- Every stored formula can be read, and none leads back to itself. -/
structure Acyclic (r : Registry) (db : Database) : Prop where
  table : db.formulas.Kept
  readable : ∀ name, ∃ tree, db.catalog name = .ok tree
  chains : db.catalog.Acyclic r

theorem Acyclic.create (r : Registry) : Acyclic r .create where
  table := .empty
  readable name := ⟨none, catalog_of_none rfl⟩
  chains name path := by
    obtain ⟨_, ⟨e, _, answer, _⟩, _⟩ := Relation.TransGen.head'_iff.1 path
    rw [catalog_of_none rfl] at answer
    cases answer

/-- A write keeps formulas from leading back to themselves that lays trees over the catalog whose needs
    were found. -/
theorem Acyclic.overlaid (h : Acyclic r db) (table : db'.formulas.Kept) {changed : List (String × Expr)}
    (laid : db'.catalog = db.catalog.overlaid changed)
    (reads : ∀ name tree, Sorted.get? name changed = some tree →
      ∃ needs, Reads r (db.catalog.overlaid changed) name tree needs) : Acyclic r db' where
  table := table
  readable name := by
    rw [laid, Catalog.overlaid]
    split
    · exact ⟨_, rfl⟩
    · exact h.readable name
  chains := laid ▸ h.chains.overlaid reads

theorem Acyclic.change (h : Acyclic r db) (changed : Change r db db') : Acyclic r db' := by
  have table := changed.table h.table
  cases changed with
  | @register e w refreshed text _ _ reads renewed covers =>
      refine h.overlaid table (catalog_registered db refreshed text) (fun name tree found => ?_)
      rw [Sorted.get?_cons, Sorted.get?_nil] at found
      split at found
      · rename_i same
        cases found
        subst same
        refine ⟨w.needs, reads.transfer (fun need hneed => ?_)⟩
        rw [Catalog.overlaid_single, if_neg]
        rintro rfl
        exact reads.not_mem hneed
      · cases found
  | @rename old new changed writes renames =>
      refine h.overlaid table (renames.catalog h.table) (fun name tree found => ?_)
      obtain ⟨w, hw, rfl⟩ := List.mem_map.1 (renames.covers _ (Sorted.mem_of_get? found)).1
      obtain ⟨written, -, answer, reads⟩ := renames.renewed w hw
      rw [Catalog.overlaid, found] at answer
      cases answer
      exact ⟨w.needs, reads⟩

theorem Acyclic.deleteFormula (h : Acyclic r db) (name : String) :
    Acyclic r (db.deleteFormula name).2 where
  table := deleteFormula_table h.table name
  readable other := by
    rw [catalog_deleteFormula]
    split
    · exact ⟨none, rfl⟩
    · exact h.readable other
  chains := by
    refine h.chains.mono (fun {other e} answer => ?_)
    rw [catalog_deleteFormula] at answer
    split at answer
    · cases answer
    · exact answer

/-- Settings and metadata do not count. -/
theorem Acyclic.of_catalog (h : Acyclic r db) (table : db'.formulas.Kept)
    (same : db'.catalog = db.catalog) : Acyclic r db' where
  table := table
  readable := same ▸ h.readable
  chains := same ▸ h.chains

theorem Acyclic.setMetadata (h : Acyclic r db) (name : String) (metadata : Json) :
    Acyclic r (db.setMetadata name metadata).2 :=
  h.of_catalog (h.table.modify name (fun row => { row with metadata := metadata.kept }))
    (catalog_setMetadata db name metadata)

theorem Acyclic.restore {backup : Database} (h : Acyclic r backup) (db : Database) :
    Acyclic r (db.restore backup) :=
  h.of_catalog h.table rfl

theorem Acyclic.lasts (r : Registry) : Lasts r (Acyclic r) where
  table := Acyclic.table
  change := Acyclic.change
  delete := Acyclic.deleteFormula
  metadata := Acyclic.setMetadata
  restore := Acyclic.restore

/-- A stored formula names another one: it is among what is found for its text. -/
def Names (r : Registry) (store : Store) (db : Database) (name other : String) : Prop :=
  ∃ row e found, db.formulas.row? name = some row ∧ Expr.ofText row.text = .ok e ∧
    (Dependencies.direct r store e).run db.catalog = .ok found ∧ other ∈ Dependencies.names found ∧
    db.formulas.contains other = true

/-- What a formula names it reads. -/
theorem Acyclic.leads_of_names (h : Acyclic r db) {store : Store} {name other : String}
    (names : db.Names r store name other) : db.catalog.Leads r name other := by
  obtain ⟨row, e, found, hrow, text, run, mem, stored⟩ := names
  obtain ⟨p, hp, rfl⟩ := List.mem_map.1 mem
  obtain ⟨entry, hentry⟩ := Option.isSome_iff_exists.1 stored
  obtain ⟨tree, answer⟩ : ∃ tree, db.catalog p.1 = .ok (some tree) := by
    obtain ⟨found, answer⟩ := h.readable p.1
    cases found with
    | some tree => exact ⟨tree, answer⟩
    | none =>
        simp only [catalog, Table.row?, hentry, Option.map_some] at answer
        obtain ⟨_, -, none⟩ := ok_of_map answer
        cases none
  exact ⟨e, tree, catalog_of_row? hrow text, (Dependencies.stands_direct run).2.1 p hp, answer⟩

/-- What a stored formula names can always be found. -/
theorem Acyclic.direct_ok (h : Acyclic r db) (store : Store) (e : Expr) :
    ∃ found, (Dependencies.direct r store e).run db.catalog = .ok found := by
  rw [Dependencies.run_direct]
  generalize r.references e = refs
  generalize ([] : Dependencies) = found
  induction refs generalizing found with
  | nil => exact ⟨found, rfl⟩
  | cons name refs ih =>
      obtain ⟨tree, answer⟩ := h.readable name
      have noted : Dependencies.note store db.catalog found name =
          .ok (Sorted.put name (Dependencies.standsFor store name tree) found) := by
        rw [Dependencies.note, answer]
        rfl
      rw [foldlM_cons_ok noted]
      exact ih _

end Database

end SeriesLang
