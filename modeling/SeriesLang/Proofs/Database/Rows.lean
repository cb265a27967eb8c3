import SeriesLang.Database.Formula
import SeriesLang.Proofs.Sorted

/-! # Rows of the formula table

What each write leaves under each name: which rows stay, which ones change, and that no two names ever
share an id.
-/

namespace SeriesLang

namespace Sorted

variable {κ α β : Type}

theorem get?_mapKeyed [DecidableEq κ] (f : κ → α → β) (key : κ) (entries : List (κ × α)) :
    get? key (entries.map (fun p => (p.1, f p.1 p.2))) = (get? key entries).map (f key) := by
  induction entries with
  | nil => rfl
  | cons p rest ih =>
      obtain ⟨other, value⟩ := p
      rw [List.map_cons, get?_cons, get?_cons, ih]
      split
      · rename_i heq
        rw [heq]
        rfl
      · rfl

theorem Ascending.mapKeyed [LT κ] {entries : List (κ × α)} (h : Ascending entries) (f : κ → α → β) :
    Ascending (entries.map (fun p => (p.1, f p.1 p.2))) :=
  List.pairwise_map.2 h

end Sorted

namespace Table

variable {ρ : Type}

theorem find?_write (t : Table ρ) (name other : String) (row : ρ) :
    (t.write name row).find? other = if name = other then some ⟨t.idFor name, row⟩ else t.find? other :=
  Sorted.get?_put name other _ t.entries

theorem find?_mapRows (t : Table ρ) (f : String → ρ → ρ) (name : String) :
    (t.mapRows f).find? name = (t.find? name).map (fun e => { e with row := f name e.row }) :=
  Sorted.get?_mapKeyed (fun name (e : Entry ρ) => (⟨e.id, f name e.row⟩ : Entry ρ)) name t.entries

theorem find?_modify (t : Table ρ) (name other : String) (f : ρ → ρ) :
    (t.modify name f).find? other =
      if other = name then (t.find? other).map (fun e => { e with row := f e.row })
      else t.find? other := by
  rw [modify, find?_mapRows]
  split
  · rfl
  · cases t.find? other <;> rfl

theorem find?_erase (t : Table ρ) (name other : String) :
    (t.erase name).find? other = if other = name then none else t.find? other :=
  Sorted.get?_erase name other t.entries

theorem id?_mapRows (t : Table ρ) (f : String → ρ → ρ) (name : String) :
    (t.mapRows f).id? name = t.id? name := by
  rw [id?, id?, find?_mapRows]
  cases t.find? name <;> rfl

theorem row?_modify (t : Table ρ) (name other : String) (f : ρ → ρ) :
    (t.modify name f).row? other = if other = name then (t.row? other).map f else t.row? other := by
  rw [row?, find?_modify, row?]
  split
  · cases t.find? other <;> rfl
  · rfl

theorem row?_write (t : Table ρ) (name other : String) (row : ρ) :
    (t.write name row).row? other = if name = other then some row else t.row? other := by
  rw [row?, find?_write]
  split <;> rfl

theorem row?_mapRows (t : Table ρ) (f : String → ρ → ρ) (name : String) :
    (t.mapRows f).row? name = (t.row? name).map (f name) := by
  rw [row?, find?_mapRows, row?]
  cases t.find? name <;> rfl

theorem row?_erase (t : Table ρ) (name other : String) :
    (t.erase name).row? other = if other = name then none else t.row? other := by
  rw [row?, find?_erase]
  split <;> rfl

theorem row?_eq_none_iff {t : Table ρ} {name : String} : t.row? name = none ↔ t.id? name = none := by
  rw [row?, id?, Option.map_eq_none_iff, Option.map_eq_none_iff]

theorem id?_of_row? {t : Table ρ} {name : String} {row : ρ} (h : t.row? name = some row) :
    ∃ id, t.id? name = some id := by
  obtain ⟨e, found, -⟩ := Option.map_eq_some_iff.1 h
  exact ⟨e.id, by rw [id?, found]; rfl⟩

theorem contains_of_row? {t : Table ρ} {name : String} {row : ρ} (h : t.row? name = some row) :
    t.contains name = true := by
  obtain ⟨e, found, -⟩ := Option.map_eq_some_iff.1 h
  rw [contains, found]
  rfl

/-- Rows stand in order under their names, each with an id of its own that was given out. -/
structure Kept (t : Table ρ) : Prop where
  ascending : Sorted.Ascending t.entries
  distinct : ∀ {a b id}, t.id? a = some id → t.id? b = some id → a = b
  given : ∀ {a id}, t.id? a = some id → id ≤ t.lastId

theorem Kept.mapRows {t : Table ρ} (h : t.Kept) (f : String → ρ → ρ) : (t.mapRows f).Kept where
  ascending := h.ascending.mapKeyed (fun name (e : Entry ρ) => (⟨e.id, f name e.row⟩ : Entry ρ))
  distinct ha hb := by
    rw [id?_mapRows] at ha hb
    exact h.distinct ha hb
  given ha := by
    rw [id?_mapRows] at ha
    exact h.given ha

theorem Kept.modify {t : Table ρ} (h : t.Kept) (name : String) (f : ρ → ρ) :
    (t.modify name f).Kept :=
  h.mapRows _

theorem id?_write (t : Table ρ) (name other : String) (row : ρ) :
    (t.write name row).id? other = if name = other then some (t.idFor name) else t.id? other := by
  rw [id?, find?_write]
  split <;> rfl

theorem id?_idFor {t : Table ρ} {name : String} {id : Nat} (h : t.idFor name = id) :
    t.id? name = some id ∨ id = t.lastId + 1 := by
  rw [idFor] at h
  cases hname : t.id? name with
  | none => exact .inr (by rw [← h, hname]; rfl)
  | some found =>
      rw [hname] at h
      exact .inl (congrArg some h)

theorem Kept.write {t : Table ρ} (h : t.Kept) (name : String) (row : ρ) : (t.write name row).Kept where
  ascending := h.ascending.put name _
  distinct := by
    intro a b id ha hb
    rw [id?_write] at ha hb
    split at ha <;> split at hb
    · rename_i first second
      rw [← first, ← second]
    · rename_i first _
      rcases id?_idFor (Option.some.inj ha) with old | new
      · exact first ▸ h.distinct old hb
      · exact absurd (h.given hb) (by omega)
    · rename_i _ second
      rcases id?_idFor (Option.some.inj hb) with old | new
      · exact second ▸ h.distinct ha old
      · exact absurd (h.given ha) (by omega)
    · exact h.distinct ha hb
  given := by
    intro a id ha
    show id ≤ t.lastId + 1
    rw [id?_write] at ha
    split at ha
    · rcases id?_idFor (Option.some.inj ha) with old | new
      · exact Nat.le_succ_of_le (h.given old)
      · exact Nat.le_of_eq new
    · exact Nat.le_succ_of_le (h.given ha)

theorem id?_of_erase {t : Table ρ} {name other : String} {id : Nat}
    (h : (t.erase name).id? other = some id) : other ≠ name ∧ t.id? other = some id := by
  rw [id?, find?_erase] at h
  split at h
  · cases h
  · rename_i apart
    exact ⟨apart, h⟩

theorem Kept.erase {t : Table ρ} (h : t.Kept) (name : String) : (t.erase name).Kept where
  ascending := h.ascending.erase name
  distinct ha hb := h.distinct (id?_of_erase ha).2 (id?_of_erase hb).2
  given ha := h.given (id?_of_erase ha).2

theorem Kept.empty : ({} : Table ρ).Kept where
  ascending := .nil
  distinct ha _ := by cases ha
  given ha := by cases ha

end Table

namespace Database

theorem needsRow_congr {db db' : Database} (h : ∀ name, db'.formulas.id? name = db.formulas.id? name)
    (needs : List String) : db'.needsRow needs = db.needsRow needs := by
  simp only [needsRow, h]

theorem needsRow_of_ascending (db : Database) {needs : List String}
    (h : needs.Pairwise (· < ·)) :
    db.needsRow needs = needs.map (fun need => (need, db.formulas.id? need)) :=
  Sorted.putAll_of_ascending (List.pairwise_map.2 h)

theorem setNeeds_id? (db : Database) (name : String) (needs : List String) (other : String) :
    (db.setNeeds name needs).formulas.id? other = db.formulas.id? other :=
  Table.id?_mapRows _ _ _

/-- After needs were replaced, a row that none were given for is the one it was. -/
theorem setNeedsAll_row? {needs : List (String × List String)} {db : Database} {name : String}
    {row : FormulaRow} (h : (db.setNeedsAll needs).formulas.row? name = some row) :
    (name ∉ needs.map Prod.fst ∧ db.formulas.row? name = some row) ∨
      ∃ names old, (name, names) ∈ needs ∧ db.formulas.row? name = some old ∧
        row = { old with needs := db.needsRow names } := by
  induction needs generalizing db with
  | nil => exact .inl ⟨by simp, h⟩
  | cons p needs ih =>
      obtain ⟨other, names⟩ := p
      have same := needsRow_congr (setNeeds_id? db other names)
      have first := Table.row?_modify db.formulas other name
        (fun row => { row with needs := db.needsRow names })
      rcases ih h with ⟨fresh, hrow⟩ | ⟨later, old, hmem, hrow, rfl⟩
      · have hrow := first.symm.trans hrow
        split at hrow
        · rename_i heq
          obtain ⟨old, hold, rfl⟩ := Option.map_eq_some_iff.1 hrow
          exact .inr ⟨names, old, by simp [heq], hold, rfl⟩
        · rename_i apart
          exact .inl ⟨by simpa [apart] using fresh, hrow⟩
      · have hrow := first.symm.trans hrow
        rw [same]
        split at hrow
        · obtain ⟨older, hold, rfl⟩ := Option.map_eq_some_iff.1 hrow
          exact .inr ⟨later, older, List.mem_cons_of_mem _ hmem, hold, rfl⟩
        · exact .inr ⟨later, old, List.mem_cons_of_mem _ hmem, hrow, rfl⟩

theorem setNeedsAll_text (needs : List (String × List String)) (db : Database) (name : String) :
    ((db.setNeedsAll needs).formulas.row? name).map FormulaRow.text =
      (db.formulas.row? name).map FormulaRow.text := by
  induction needs generalizing db with
  | nil => rfl
  | cons p needs ih =>
      refine (ih (db.setNeeds p.1 p.2)).trans ?_
      rw [setNeeds, Table.row?_modify]
      split
      · cases db.formulas.row? name <;> rfl
      · rfl

theorem setNeedsAll_table (needs : List (String × List String)) {db : Database}
    (h : db.formulas.Kept) : (db.setNeedsAll needs).formulas.Kept ∧
      ∀ name, (db.setNeedsAll needs).formulas.id? name = db.formulas.id? name := by
  induction needs generalizing db with
  | nil => exact ⟨h, fun _ => rfl⟩
  | cons p needs ih =>
      have first : (db.setNeeds p.1 p.2).formulas.Kept := by
        simp only [setNeeds]
        exact h.modify _ _
      obtain ⟨kept, ids⟩ := ih first
      exact ⟨kept, fun name => (ids name).trans (setNeeds_id? db p.1 p.2 name)⟩

/-- After formulas were replaced, a row that was not meant is the one it was. -/
theorem replaceAll_row? {writes : List FormulaWrite} {db : Database} {name : String}
    {row : FormulaRow} (h : (writes.foldl replaceFormula db).formulas.row? name = some row) :
    (name ∉ writes.map FormulaWrite.name ∧ db.formulas.row? name = some row) ∨
      ∃ w ∈ writes, w.name = name ∧ row.text = w.text ∧ row.hash = w.hash ∧
        row.needs = db.needsRow w.needs := by
  induction writes generalizing db with
  | nil => exact .inl ⟨by simp, h⟩
  | cons w writes ih =>
      have ids : ∀ other, (db.replaceFormula w).formulas.id? other = db.formulas.id? other :=
        fun other => (Table.id?_mapRows _ _ _).trans (Table.id?_mapRows _ _ _)
      rcases ih h with ⟨fresh, hrow⟩ | ⟨later, hmem, hname, text, hash, needs⟩
      · by_cases heq : name = w.name
        · refine .inr ⟨w, List.mem_cons_self, heq.symm, ?_⟩
          rw [replaceFormula, setNeeds, Table.row?_modify, if_pos heq] at hrow
          obtain ⟨old, hold, rfl⟩ := Option.map_eq_some_iff.1 hrow
          rw [Table.row?_modify, if_pos heq] at hold
          obtain ⟨older, -, rfl⟩ := Option.map_eq_some_iff.1 hold
          exact ⟨rfl, rfl, needsRow_congr (fun other => Table.id?_mapRows _ _ _) w.needs⟩
        · rw [replaceFormula, setNeeds, Table.row?_modify, if_neg heq, Table.row?_modify,
            if_neg heq] at hrow
          exact .inl ⟨by simpa [heq] using fresh, hrow⟩
      · rw [needsRow_congr ids] at needs
        exact .inr ⟨later, List.mem_cons_of_mem _ hmem, hname, text, hash, needs⟩

theorem replaceAll_table (writes : List FormulaWrite) {db : Database} (h : db.formulas.Kept) :
    (writes.foldl replaceFormula db).formulas.Kept ∧
      ∀ name, (writes.foldl replaceFormula db).formulas.id? name = db.formulas.id? name := by
  induction writes generalizing db with
  | nil => exact ⟨h, fun _ => rfl⟩
  | cons w writes ih =>
      have first : (db.replaceFormula w).formulas.Kept := by
        simp only [replaceFormula, setNeeds]
        exact (h.modify _ _).modify _ _
      obtain ⟨kept, ids⟩ := ih first
      exact ⟨kept, fun name => (ids name).trans
        ((Table.id?_mapRows _ _ _).trans (Table.id?_mapRows _ _ _))⟩

end Database

end SeriesLang
