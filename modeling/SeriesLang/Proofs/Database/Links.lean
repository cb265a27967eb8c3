import Mathlib.Data.List.Basic
import SeriesLang.Proofs.Database.Change

/-! # The table of needs

The needs of all formulas make up one table: who needs which name, and which formula has that name. Every
write leaves in it the formulas that now have the names. A write that gives a name to a formula writes the
needs again that lead to the name, and a deletion takes them away.
-/

namespace SeriesLang

/-- A row of the table of needs. -/
structure Edge where
  /-- The id of the formula that needs something. -/
  source : Nat
  need : String
  /-- The id of the formula that has the needed name, if there is one. -/
  target : Option Nat
deriving DecidableEq, Repr

/-- The needs of one formula. -/
def Entry.edges (e : Entry FormulaRow) : List Edge :=
  e.row.needs.map (fun need => ⟨e.id, need.1, need.2⟩)

/-- The needs of all formulas, by the names of the formulas and the needed names. -/
def Database.edges (db : Database) : List Edge :=
  db.formulas.entries.flatMap (fun p => p.2.edges)

namespace Database

variable {r : Registry} {db db' : Database} {name : String}

theorem mem_edges {edge : Edge} (kept : db.formulas.Kept) : edge ∈ db.edges ↔ ∃ name row,
    db.formulas.id? name = some edge.source ∧ db.formulas.row? name = some row ∧
      (edge.need, edge.target) ∈ row.needs := by
  constructor
  · intro h
    obtain ⟨⟨name, entry⟩, hentry, h⟩ := List.mem_flatMap.1 h
    obtain ⟨need, hneed, rfl⟩ := List.mem_map.1 h
    have found := Sorted.get?_of_mem kept.ascending hentry
    refine ⟨name, entry.row, ?_, ?_, hneed⟩
    · rw [Table.id?, Table.find?, found]
      rfl
    · rw [Table.row?, Table.find?, found]
      rfl
  · rintro ⟨name, row, hid, hrow, hneed⟩
    obtain ⟨entry, found, rfl⟩ := Option.map_eq_some_iff.1 hrow
    rw [Table.id?, found, Option.map_some, Option.some.injEq] at hid
    refine List.mem_flatMap.2 ⟨_, Sorted.mem_of_get? found, List.mem_map.2 ⟨_, hneed, ?_⟩⟩
    rw [hid]

/-- Each need leads to the formula that has its name, or to none if there is none. -/
structure Linked (db : Database) : Prop where
  table : db.formulas.Kept
  links : ∀ {name row}, db.formulas.row? name = some row →
    ∀ need ∈ row.needs, need.2 = db.formulas.id? need.1

theorem link_of_mem_needsRow {needs : List String} {need : String × Option Nat}
    (h : need ∈ db.needsRow needs) : need.2 = db.formulas.id? need.1 := by
  rcases Sorted.mem_putAll h with h | h
  · obtain ⟨other, -, rfl⟩ := List.mem_map.1 h
    rfl
  · cases h

/-- A write keeps the needs linked that writes a row's needs again or leaves those of them that lead to the
    same formulas as before. -/
theorem Linked.of_rows (h : db.Linked) (table : db'.formulas.Kept)
    (rows : ∀ {name row}, db'.formulas.row? name = some row →
      (∃ needs, row.needs = db'.needsRow needs) ∨ ∃ old, db.formulas.row? name = some old ∧
        ∀ need ∈ row.needs, need ∈ old.needs ∧ db'.formulas.id? need.1 = db.formulas.id? need.1) :
    db'.Linked where
  table := table
  links := by
    intro name row hrow need hneed
    rcases rows hrow with ⟨needs, written⟩ | ⟨old, hold, same⟩
    · rw [written] at hneed
      exact link_of_mem_needsRow hneed
    · obtain ⟨before, ids⟩ := same need hneed
      rw [ids, h.links hold need before]

theorem Linked.create : Database.create.Linked where
  table := .empty
  links hrow := by cases hrow

/-- A formula that is stored is found, whatever is laid over the catalog, or it cannot be read. -/
theorem overlaid_ne_none_of_row? {row : FormulaRow} (h : db.formulas.row? name = some row)
    (changed : List (String × Expr)) : db.catalog.overlaid changed name ≠ .ok none := by
  intro absent
  unfold Catalog.overlaid at absent
  split at absent
  · cases absent
  · simp only [catalog, h] at absent
    obtain ⟨_, -, none⟩ := ok_of_map absent
    cases none

theorem Linked.change (h : db.Linked) (changed : Change r db db') : db'.Linked := by
  have table := changed.table h.table
  cases changed with
  | @register e w refreshed text _ _ reads renewed covers =>
      obtain ⟨-, ids⟩ := setNeedsAll_table refreshed (putFormula_table h.table w)
      refine h.of_rows table (fun {name row} hrow => ?_)
      rcases setNeedsAll_row? hrow with ⟨stale, hput⟩ | ⟨names, old, -, -, rfl⟩
      · rw [putFormula_row?] at hput
        split at hput
        · cases hput
          exact .inl ⟨w.needs, (needsRow_congr ids w.needs).symm⟩
        · refine .inr ⟨row, hput, fun need hneed => ⟨hneed, ?_⟩⟩
          -- The needs of a formula that needs the one that was written have been written again.
          have apart : need.1 ≠ w.name := by
            intro heq
            rcases covers name (mem_dependents hput (List.mem_map.2 ⟨need, hneed, heq⟩)) with
              absent | refreshed
            · exact overlaid_ne_none_of_row? hput _ absent
            · exact stale refreshed
          exact (ids need.1).trans (putFormula_id? db w apart)
      · exact .inl ⟨names, (needsRow_congr ids names).symm⟩
  | @rename old new changed writes renames =>
      obtain ⟨-, ids⟩ := replaceAll_table writes h.table
      rw [replaceFormulas_eq renames.known] at table ⊢
      refine h.of_rows table (fun {name row} hrow => ?_)
      rcases replaceAll_row? hrow with ⟨-, hold⟩ | ⟨w, -, -, -, -, needs⟩
      · exact .inr ⟨row, hold, fun need hneed => ⟨hneed, ids need.1⟩⟩
      · exact .inl ⟨w.needs, needs.trans (needsRow_congr ids w.needs).symm⟩

/-- A deletion takes away the needs that lead to the formula, so none is left that leads to nothing. -/
theorem Linked.deleteFormula (h : db.Linked) (name : String) : (db.deleteFormula name).2.Linked := by
  cases hid : db.formulas.id? name with
  | none => exact (deleteFormula_of_none hid).symm ▸ h
  | some id =>
      refine h.of_rows (deleteFormula_table h.table name) (fun {other row} hrow => .inr ?_)
      rw [deleteFormula_row? hid] at hrow
      split at hrow
      · cases hrow
      obtain ⟨old, hold, rfl⟩ := Option.map_eq_some_iff.1 hrow
      refine ⟨old, hold, fun need hneed => ?_⟩
      obtain ⟨before, kept⟩ := List.mem_filter.1 hneed
      refine ⟨before, deleteFormula_id? db fun heq => ?_⟩
      rw [decide_eq_true_eq] at kept
      exact kept (by rw [h.links hold need before, heq, hid])

theorem Linked.setMetadata (h : db.Linked) (name : String) (metadata : Json) :
    (db.setMetadata name metadata).2.Linked := by
  have table := h.table.modify name (fun row => { row with metadata := metadata.kept })
  refine h.of_rows table (fun {other row} hrow => .inr ?_)
  rw [setMetadata_row?] at hrow
  obtain ⟨old, hold, rfl⟩ := Option.map_eq_some_iff.1 hrow
  refine ⟨old, hold, fun need hneed => ⟨?_, Table.id?_mapRows _ _ _⟩⟩
  split at hneed <;> exact hneed

/-- A backup is restored with its needs. -/
theorem Linked.restore {backup : Database} (h : backup.Linked) (db : Database) :
    (db.restore backup).Linked :=
  ⟨h.table, h.links⟩

theorem Linked.lasts (r : Registry) : Lasts r Linked where
  table := Linked.table
  change := Linked.change
  delete := Linked.deleteFormula
  metadata := Linked.setMetadata
  restore := Linked.restore

/-- Every need stands at a stored formula and leads to the formula of its name. -/
theorem Linked.edges (h : db.Linked) {edge : Edge} (hedge : edge ∈ db.edges) :
    (∃ name, db.formulas.id? name = some edge.source) ∧ edge.target = db.formulas.id? edge.need := by
  obtain ⟨name, row, hid, hrow, hneed⟩ := (mem_edges h.table).1 hedge
  exact ⟨⟨name, hid⟩, h.links hrow _ hneed⟩

theorem flatMap_filter {α β : Type} (keep : α → Bool) (f : α → List β) (as : List α) :
    (as.filter keep).flatMap f = as.flatMap (fun a => if keep a then f a else []) := by
  induction as with
  | nil => rfl
  | cons a as ih =>
      rw [List.filter_cons, List.flatMap_cons, ← ih]
      split <;> simp

/-- A deletion takes away the needs of the formula and the needs of its name, and no other ones. -/
theorem Linked.edges_deleteFormula (h : db.Linked) {id : Nat} (hid : db.formulas.id? name = some id) :
    (db.deleteFormula name).2.edges =
      db.edges.filter (fun edge => edge.source ≠ id ∧ edge.need ≠ name) := by
  have entries : (db.deleteFormula name).2.formulas.entries =
      (Sorted.erase name db.formulas.entries).map (fun p =>
        (p.1, { p.2 with row := p.2.row.without id })) := by
    simp only [Database.deleteFormula, hid]
    rfl
  rw [Database.edges, entries, List.flatMap_map, Sorted.erase, flatMap_filter, Database.edges,
    List.filter_flatMap]
  refine List.flatMap_congr fun p hp => ?_
  obtain ⟨other, entry⟩ := p
  have found := Sorted.get?_of_mem h.table.ascending hp
  have own : db.formulas.id? other = some entry.id := by
    rw [Table.id?, Table.find?, found]
    rfl
  have row : db.formulas.row? other = some entry.row := by
    rw [Table.row?, Table.find?, found]
    rfl
  by_cases same : other = name
  · have whole : entry.id = id := Option.some.inj (own.symm.trans (same ▸ hid))
    simp [Entry.edges, same, whole, List.filter_map, Function.comp_def]
  · have apart : entry.id ≠ id := fun heq => same (h.table.distinct (heq ▸ own) hid)
    rw [if_pos (decide_eq_true same), Entry.edges, Entry.edges, List.filter_map]
    refine congrArg _ (List.filter_congr fun need hneed => ?_)
    have target : need.2 = some id ↔ need.1 = name := by
      rw [h.links row need hneed]
      exact ⟨fun heq => h.table.distinct heq hid, fun heq => heq ▸ hid⟩
    simp [apart, target]

end Database

end SeriesLang
