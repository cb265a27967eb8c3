import SeriesLang.Proofs.Database.Rows
import SeriesLang.Proofs.Query.Run

/-! # The catalog after a write

Which formula each name has after a write. Only the texts of rows count: a write of formulas lays their
trees over the catalog, a deletion takes one formula out of it, and metadata does not show.
-/

namespace SeriesLang

namespace Catalog

variable {catalog : Catalog} {name : String} {tree : Expr}

theorem overlaid_of_not_mem {changed : List (String × Expr)} (h : name ∉ changed.map Prod.fst) :
    catalog.overlaid changed name = catalog name := by
  have absent : Sorted.get? name changed = none := by
    rw [Sorted.get?_eq_none_iff]
    rintro p hp rfl
    exact h (List.mem_map.2 ⟨p, hp, rfl⟩)
  rw [overlaid, absent]

/-- What is laid over a catalog has a formula, and so has what had one before. -/
theorem overlaid_ne_none {changed : List (String × Expr)} (h : catalog name = .ok (some tree)) :
    catalog.overlaid changed name ≠ .ok none := by
  unfold overlaid
  rw [h]
  split <;> simp

end Catalog

/-- What is left of a row when the formula of an id is deleted: the needs that lead to that formula are gone. -/
def FormulaRow.without (id : Nat) (row : FormulaRow) : FormulaRow :=
  { row with needs := row.needs.filter (fun need => need.2 ≠ some id) }

namespace Database

variable {name : String} {e : Expr}

theorem catalog_of_row? {db : Database} {row : FormulaRow} (h : db.formulas.row? name = some row)
    (read : Expr.ofText row.text = .ok e) : db.catalog name = .ok (some e) := by
  simp only [catalog, h, read]
  rfl

theorem catalog_of_none {db : Database} (h : db.formulas.row? name = none) :
    db.catalog name = .ok none := by
  simp only [catalog, h]

theorem row?_of_catalog {db : Database} (h : db.catalog name = .ok (some e)) :
    ∃ row, db.formulas.row? name = some row ∧ Expr.ofText row.text = .ok e := by
  cases hrow : db.formulas.row? name with
  | none =>
      rw [catalog_of_none hrow] at h
      cases h
  | some row =>
      simp only [catalog, hrow] at h
      obtain ⟨tree, read, heq⟩ := ok_of_map h
      cases heq
      exact ⟨row, rfl, read⟩

/-- What holds of the texts of all rows holds of all formulas. -/
theorem forall_catalog {P : String → Expr → Prop} {db : Database}
    (h : ∀ p ∈ db.formulas.entries, ∀ e ∈ (Expr.ofText p.2.row.text).toOption, P p.1 e) (name : String)
    (e : Expr) (stored : db.catalog name = .ok (some e)) : P name e := by
  obtain ⟨row, found, text⟩ := row?_of_catalog stored
  obtain ⟨entry, hentry, rfl⟩ := Option.map_eq_some_iff.1 found
  exact h _ (Sorted.mem_of_get? hentry) e (toOption_eq_some_iff.2 text)

/-- Catalogs that read the same texts are the same. -/
theorem catalog_congr {db db' : Database}
    (h : (db'.formulas.row? name).map FormulaRow.text = (db.formulas.row? name).map FormulaRow.text) :
    db'.catalog name = db.catalog name := by
  unfold catalog
  cases hrow : db.formulas.row? name with
  | none =>
      rw [hrow, Option.map_none, Option.map_eq_none_iff] at h
      rw [h]
  | some row =>
      rw [hrow] at h
      obtain ⟨row', hrow', text⟩ := Option.map_eq_some_iff.1 h
      simp only [hrow', text]

theorem putFormula_row? (db : Database) (w : FormulaWrite) (name : String) :
    (db.putFormula w).formulas.row? name = if name = w.name
      then some ⟨w.text, db.metadataFor w, w.hash, (db.putFormula w).needsRow w.needs⟩
      else db.formulas.row? name := by
  have ids := setNeeds_id?
    { db with formulas := db.formulas.write w.name ⟨w.text, db.metadataFor w, w.hash, []⟩ }
    w.name w.needs
  unfold putFormula
  rw [needsRow_congr ids, setNeeds, Table.row?_modify, Table.row?_write]
  by_cases heq : name = w.name
  · rw [if_pos heq, if_pos heq.symm, if_pos heq]
    rfl
  · rw [if_neg heq, if_neg (fun h => heq h.symm), if_neg heq]

theorem putFormula_id? (db : Database) (w : FormulaWrite) {name : String} (h : name ≠ w.name) :
    (db.putFormula w).formulas.id? name = db.formulas.id? name := by
  rw [putFormula, setNeeds_id?, Table.id?_write, if_neg (fun heq => h heq.symm)]

theorem putFormula_table {db : Database} (h : db.formulas.Kept) (w : FormulaWrite) :
    (db.putFormula w).formulas.Kept := by
  simp only [putFormula, setNeeds]
  exact (h.write _ _).modify _ _

/-- A database with one more formula and with new needs of others. -/
def registered (db : Database) (w : FormulaWrite) (refreshed : List (String × List String)) : Database :=
  ((db.putFormula w).setNeedsAll refreshed).bumpEpoch

theorem registered_table {db : Database} (h : db.formulas.Kept) (w : FormulaWrite)
    (refreshed : List (String × List String)) : (db.registered w refreshed).formulas.Kept :=
  (setNeedsAll_table refreshed (putFormula_table h w)).1

theorem catalog_registered (db : Database) {w : FormulaWrite}
    (refreshed : List (String × List String)) (text : Expr.ofText w.text = .ok e) :
    (db.registered w refreshed).catalog = db.catalog.overlaid [(w.name, e)] := by
  funext name
  have texts : (db.registered w refreshed).catalog name = (db.putFormula w).catalog name :=
    catalog_congr (setNeedsAll_text refreshed _ name)
  have row := putFormula_row? db w name
  rw [texts, Catalog.overlaid_single]
  split
  · rename_i heq
    rw [if_pos heq] at row
    exact catalog_of_row? row text
  · rename_i apart
    rw [if_neg apart] at row
    exact catalog_congr (congrArg _ row)

/-- Formulas that are all stored are all replaced. -/
theorem replaceFormulas_eq {db : Database} {writes : List FormulaWrite}
    (known : ∀ w ∈ writes, db.formulas.contains w.name = true) :
    (db.replaceFormulas writes).2 = (writes.foldl replaceFormula db).bumpEpoch := by
  rw [replaceFormulas, List.filter_eq_self.2 known]

theorem catalog_replaceFormulas {db : Database} (h : db.formulas.Kept)
    {changed : List (String × Expr)} {writes : List FormulaWrite}
    (known : ∀ w ∈ writes, db.formulas.contains w.name = true)
    (texts : ∀ w ∈ writes, ∃ tree, Expr.ofText w.text = .ok tree ∧
      db.catalog.overlaid changed w.name = .ok (some tree))
    (stored : ∀ p ∈ changed, db.formulas.contains p.1 = true)
    (covers : ∀ p ∈ changed, p.1 ∈ writes.map FormulaWrite.name) :
    (db.replaceFormulas writes).2.catalog = db.catalog.overlaid changed := by
  obtain ⟨-, ids⟩ := replaceAll_table writes h
  rw [replaceFormulas_eq known]
  funext name
  cases hrow : (writes.foldl replaceFormula db).formulas.row? name with
  | none =>
      have absent : db.formulas.row? name = none := by
        rw [Table.row?_eq_none_iff, ← ids, ← Table.row?_eq_none_iff, hrow]
      rw [Catalog.overlaid_of_not_mem, catalog_of_none absent]
      · exact catalog_of_none hrow
      · intro hmem
        obtain ⟨p, hp, rfl⟩ := List.mem_map.1 hmem
        have here := stored p hp
        rw [Table.row?_eq_none_iff, Table.id?, Option.map_eq_none_iff] at absent
        rw [Table.contains, absent] at here
        cases here
  | some row =>
      rcases replaceAll_row? hrow with ⟨outside, hold⟩ | ⟨w, hw, rfl, text, -, -⟩
      · rw [Catalog.overlaid_of_not_mem]
        · exact catalog_congr (congrArg _ (hrow.trans hold.symm))
        · intro hmem
          obtain ⟨p, hp, rfl⟩ := List.mem_map.1 hmem
          exact outside (covers p hp)
      · obtain ⟨tree, read, answer⟩ := texts w hw
        rw [answer]
        exact catalog_of_row? hrow (text ▸ read)

theorem deleteFormula_row? {db : Database} {id : Nat} (h : db.formulas.id? name = some id)
    (other : String) : (db.deleteFormula name).2.formulas.row? other =
      if other = name then none else (db.formulas.row? other).map (FormulaRow.without id) := by
  simp only [deleteFormula, h]
  show Table.row? ((db.formulas.erase name).mapRows _) other = _
  rw [Table.row?_mapRows, Table.row?_erase]
  split <;> rfl

theorem deleteFormula_of_none {db : Database} (h : db.formulas.id? name = none) :
    (db.deleteFormula name).2 = db := by
  simp only [deleteFormula, h]

theorem deleteFormula_id? (db : Database) {other : String} (h : other ≠ name) :
    (db.deleteFormula name).2.formulas.id? other = db.formulas.id? other := by
  cases hid : db.formulas.id? name with
  | none => rw [deleteFormula_of_none hid]
  | some id =>
      simp only [deleteFormula, hid]
      show Table.id? ((db.formulas.erase name).mapRows _) other = _
      rw [Table.id?_mapRows, Table.id?, Table.find?_erase, if_neg h, Table.id?]

theorem deleteFormula_table {db : Database} (h : db.formulas.Kept) (name : String) :
    (db.deleteFormula name).2.formulas.Kept := by
  cases hid : db.formulas.id? name with
  | none => exact (deleteFormula_of_none hid).symm ▸ h
  | some id =>
      simp only [deleteFormula, hid]
      exact (h.erase name).mapRows (fun _ => FormulaRow.without id)

/-- A formula that was deleted is none, and the other ones are the same. -/
theorem catalog_deleteFormula (db : Database) (name other : String) :
    (db.deleteFormula name).2.catalog other = if other = name then .ok none else db.catalog other := by
  cases hid : db.formulas.id? name with
  | none =>
      rw [deleteFormula_of_none hid]
      split
      · rename_i heq
        rw [heq, catalog_of_none (Table.row?_eq_none_iff.2 hid)]
      · rfl
  | some id =>
      have row := deleteFormula_row? hid other
      split
      · rename_i heq
        rw [if_pos heq] at row
        exact catalog_of_none row
      · rename_i apart
        rw [if_neg apart] at row
        refine catalog_congr ((congrArg _ row).trans ?_)
        rw [Option.map_map]
        rfl

theorem setMetadata_row? (db : Database) (name : String) (metadata : Json) (other : String) :
    (db.setMetadata name metadata).2.formulas.row? other = (db.formulas.row? other).map (fun row =>
      if other = name then { row with metadata := metadata.kept } else row) :=
  Table.row?_mapRows _ _ other

/-- Metadata is nothing that a formula reads. -/
theorem catalog_setMetadata (db : Database) (name : String) (metadata : Json) :
    (db.setMetadata name metadata).2.catalog = db.catalog := by
  funext other
  refine catalog_congr ?_
  rw [setMetadata_row?, Option.map_map]
  congr 1
  funext row
  simp only [Function.comp_apply]
  split <;> rfl

end Database

end SeriesLang
