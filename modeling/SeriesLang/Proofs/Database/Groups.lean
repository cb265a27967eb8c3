import SeriesLang.Proofs.Database.Writes

/-! # Groups and their bindings

Every binding names a group formula that is stored. What writes a binding checks that, and what renames or
deletes a group formula takes its bindings along. So it holds after every write.
-/

namespace SeriesLang

namespace Table

variable {ρ : Type} {t : Table ρ}

theorem contains_iff {name : String} : t.contains name = true ↔ ∃ e, t.find? name = some e :=
  Option.isSome_iff_exists

theorem find?_retain (h : t.Kept) (keep : ρ → Bool) (name : String) :
    (t.retain keep).find? name = (t.find? name).filter fun e => keep e.row :=
  Sorted.get?_pick h.ascending name

theorem find?_rename {old new : String} {e : Entry ρ} (stored : t.find? old = some e) (name : String) :
    (t.rename old new).find? name =
      if new = name then some e else if name = old then none else t.find? name := by
  rw [rename, stored]
  exact (Sorted.get?_put new name e _).trans (by rw [Sorted.get?_erase]; rfl)

/-- Rows that were there before, under their names. -/
theorem Kept.of_sub {t' : Table ρ} (h : t.Kept) (ascending : Sorted.Ascending t'.entries)
    (sub : ∀ {name id}, t'.id? name = some id → t.id? name = some id) (last : t'.lastId = t.lastId) :
    t'.Kept where
  ascending := ascending
  distinct ha hb := h.distinct (sub ha) (sub hb)
  given ha := last ▸ h.given (sub ha)

theorem Kept.retain (h : t.Kept) (keep : ρ → Bool) : (t.retain keep).Kept := by
  refine h.of_sub (h.ascending.sublist List.filter_sublist) (fun {name id} found => ?_) rfl
  obtain ⟨e, found, same⟩ := Option.map_eq_some_iff.1 found
  rw [find?_retain h, Option.filter_eq_some_iff] at found
  exact Option.map_eq_some_iff.2 ⟨e, found.1, same⟩

theorem Kept.rename {old new : String} {e : Entry ρ} (h : t.Kept) (stored : t.find? old = some e) :
    (t.rename old new).Kept := by
  -- Each id is found where it was found before, or under the new name instead of the old one.
  have origin : ∀ {name id}, (t.rename old new).id? name = some id →
      t.id? (if name = new then old else name) = some id ∧ (name ≠ new → name ≠ old) := by
    intro name id found
    rw [id?, find?_rename stored] at found
    split at found
    · rename_i same
      subst same
      rw [if_pos rfl]
      exact ⟨by rw [id?, stored]; exact found, fun apart => absurd rfl apart⟩
    · rename_i apart
      rw [if_neg fun same => apart same.symm]
      split at found
      · cases found
      · rename_i other
        exact ⟨found, fun _ => other⟩
  refine ⟨?_, fun {a b id} ha hb => ?_, fun {a id} ha => ?_⟩
  · rw [Table.rename, stored]
    exact (h.ascending.erase old).put new e
  · obtain ⟨ha, moved⟩ := origin ha
    obtain ⟨hb, moved'⟩ := origin hb
    have same := h.distinct ha hb
    split at same <;> split at same <;> simp_all
  · obtain ⟨ha, -⟩ := origin ha
    have given := h.given ha
    rw [Table.rename, stored]
    exact given

end Table

namespace Database

variable {db db' : Database}

/-- Rows are kept under names of their own, and every binding names a group formula that is stored. -/
structure Bound (db : Database) : Prop where
  groups : db.groups.Kept
  bindings : db.bindings.Kept
  stored : ∀ {name b}, db.bindings.row? name = some b → db.groups.contains b.group = true

/-- The bindings of a group formula, with their ids. -/
def bindingsOf (db : Database) (group : String) : List (String × Nat) :=
  (db.bindings.entries.filter fun p => p.2.row.group = group).map fun p => (p.1, p.2.id)

namespace Bound

theorem create : Bound .create where
  groups := .empty
  bindings := .empty
  stored h := nomatch h

theorem congr (h : db.Bound) (groups : db'.groups = db.groups) (bindings : db'.bindings = db.bindings) :
    db'.Bound where
  groups := groups ▸ h.groups
  bindings := bindings ▸ h.bindings
  stored found := by
    rw [groups]
    exact h.stored (bindings ▸ found)

theorem writeGroup (h : db.Bound) (name : String) (row : GroupRow) :
    Bound { db with groups := db.groups.write name row } where
  groups := h.groups.write name row
  bindings := h.bindings
  stored {other b} found := by
    obtain ⟨e, known⟩ := Table.contains_iff.1 (h.stored found)
    refine Table.contains_iff.2 ?_
    rw [Table.find?_write]
    split
    · exact ⟨_, rfl⟩
    · exact ⟨e, known⟩

theorem writeBinding (h : db.Bound) (name : String) {row : BindingRow}
    (known : db.groups.contains row.group = true) :
    Bound { db with bindings := db.bindings.write name row } where
  groups := h.groups
  bindings := h.bindings.write name row
  stored {other b} found := by
    rw [Table.row?_write] at found
    split at found
    · cases found
      exact known
    · exact h.stored found

theorem deleteBinding (h : db.Bound) (name : String) : (db.deleteBinding name).2.Bound where
  groups := h.groups
  bindings := h.bindings.erase name
  stored {other b} found := by
    rw [Database.deleteBinding, Table.row?_erase] at found
    split at found
    · cases found
    · exact h.stored found

end Bound

/-- A group formula is gone with its bindings, and nothing else is. -/
structure GroupDeleted (name : String) (db db' : Database) : Prop where
  settings : db'.settings = db.settings
  formulas : db'.formulas = db.formulas
  groups : ∀ other, db'.groups.find? other = if other = name then none else db.groups.find? other
  bindings : ∀ other, db'.bindings.find? other = (db.bindings.find? other).filter fun e => e.row.group ≠ name
  lastIds : db'.groups.lastId = db.groups.lastId ∧ db'.bindings.lastId = db.bindings.lastId

/-- A group formula has another name, its bindings have followed it, and nothing else is changed. -/
structure GroupRenamed (old new : String) (db db' : Database) : Prop where
  settings : db'.settings = db.settings
  formulas : db'.formulas = db.formulas
  groups : ∀ other, db'.groups.find? other =
    if new = other then db.groups.find? old else if other = old then none else db.groups.find? other
  bindings : ∀ other, db'.bindings.find? other = (db.bindings.find? other).map fun e =>
    if e.row.group = old then { e with row.group := new } else e
  lastIds : db'.groups.lastId = db.groups.lastId ∧ db'.bindings.lastId = db.bindings.lastId
  moved : db'.bindingsOf new = db.bindingsOf old

theorem Bound.deleteGroup (h : db.Bound) (name : String) :
    if db.groups.contains name then GroupDeleted name db (db.deleteGroup name).2
    else (db.deleteGroup name).2 = db := by
  unfold Database.deleteGroup
  split
  · exact ⟨rfl, rfl, fun other => Table.find?_erase ..,
      fun other => Table.find?_retain h.bindings (fun b => b.group ≠ name) other, rfl, rfl⟩
  · rfl

/-- What a binding is when its group formula is renamed. -/
def BindingRow.renamed (old new : String) (b : BindingRow) : BindingRow :=
  if b.group = old then { b with group := new } else b

theorem Bound.bindingsOf_renamed (h : db.Bound) {old new : String} (fresh : db.groups.contains new = false) :
    bindingsOf { db with bindings := db.bindings.mapRows fun _ b => BindingRow.renamed old new b } new =
      db.bindingsOf old := by
  unfold bindingsOf Table.mapRows
  rw [List.filter_map, List.map_map]
  refine congrArg (List.map _) (List.filter_congr fun p hp => decide_eq_decide.2 ?_)
  have found : db.bindings.find? p.1 = some p.2 := Sorted.get?_of_mem h.bindings.ascending hp
  have known := h.stored (b := p.2.row) (Option.map_eq_some_iff.2 ⟨_, found, rfl⟩)
  have apart : p.2.row.group ≠ new := fun same => by cases (same ▸ known).symm.trans fresh
  simp only [BindingRow.renamed]
  split
  · rename_i old
    exact ⟨fun _ => old, fun _ => rfl⟩
  · rename_i other
    exact ⟨fun same => absurd same apart, fun same => absurd same other⟩

theorem Bound.renameGroup (h : db.Bound) {old new : String} (known : db.groups.contains old = true)
    (fresh : db.groups.contains new = false) :
    ∃ db', db.renameGroup old new = .ok db' ∧ GroupRenamed old new db db' := by
  obtain ⟨e, stored⟩ := Table.contains_iff.1 known
  have done : db.renameGroup old new = .ok
      { db with
        groups := db.groups.rename old new
        bindings := db.bindings.mapRows fun _ b => BindingRow.renamed old new b } := by
    rw [Database.renameGroup, known, fresh]
    rfl
  refine ⟨_, done, rfl, rfl, fun other => ?_, fun other => ?_, ⟨?_, rfl⟩, h.bindingsOf_renamed fresh⟩
  · rw [stored]
    exact Table.find?_rename stored other
  · refine (Table.find?_mapRows ..).trans (congrArg (Option.map · _) (funext fun e => ?_))
    unfold BindingRow.renamed
    split <;> rfl
  · rw [Table.rename, stored]

/-- A renaming that is refused changes nothing. -/
theorem renameGroup_refused {old new : String}
    (refused : ¬(db.groups.contains old = true ∧ db.groups.contains new = false)) :
    db.orKept (db.renameGroup old new) = db := by
  unfold Database.renameGroup
  split
  · rfl
  · split
    · rfl
    · rename_i known fresh
      exact absurd ⟨by simpa using known, by simpa using fresh⟩ refused

theorem Bound.renamed (h : db.Bound) {old new : String} (done : db.renameGroup old new = .ok db') :
    db'.Bound := by
  obtain ⟨known, done⟩ := ok_of_else done
  obtain ⟨fresh, done⟩ := ok_of_else done
  obtain ⟨e, stored⟩ := Table.contains_iff.1 (by simpa using known : db.groups.contains old = true)
  cases done
  refine ⟨h.groups.rename stored, h.bindings.mapRows fun _ => BindingRow.renamed old new,
    fun {name b} found => Table.contains_iff.2 ?_⟩
  obtain ⟨before, was, rfl⟩ := Option.map_eq_some_iff.1 ((Table.row?_mapRows ..).symm.trans found)
  obtain ⟨e', there⟩ := Table.contains_iff.1 (h.stored was)
  rw [Table.find?_rename stored]
  by_cases follows : before.group = old
  · rw [if_pos follows]
    exact ⟨e, if_pos rfl⟩
  · rw [if_neg follows, if_neg follows, there]
    split
    · exact ⟨e, rfl⟩
    · exact ⟨e', rfl⟩

theorem Bound.deleted (h : db.Bound) (name : String) : (db.deleteGroup name).2.Bound := by
  unfold Database.deleteGroup
  split
  · refine ⟨h.groups.erase name, h.bindings.retain fun b => b.group ≠ name,
      fun {other b} found => Table.contains_iff.2 ?_⟩
    obtain ⟨e, kept, rfl⟩ := Option.map_eq_some_iff.1 found
    obtain ⟨was, other⟩ := Option.filter_eq_some_iff.1 ((Table.find?_retain h.bindings ..).symm.trans kept)
    obtain ⟨e', there⟩ := Table.contains_iff.1 (h.stored (Option.map_eq_some_iff.2 ⟨e, was, rfl⟩))
    exact ⟨e', (Table.find?_erase ..).trans ((if_neg (of_decide_eq_true other)).trans there)⟩
  · exact h

theorem setNeedsAll_groups (needs : List (String × List String)) (db : Database) :
    (db.setNeedsAll needs).groups = db.groups ∧ (db.setNeedsAll needs).bindings = db.bindings := by
  induction needs generalizing db with
  | nil => exact ⟨rfl, rfl⟩
  | cons p needs ih => exact ih (db.setNeeds p.1 p.2)

theorem replaceAll_groups (writes : List FormulaWrite) (db : Database) :
    (writes.foldl replaceFormula db).groups = db.groups ∧
      (writes.foldl replaceFormula db).bindings = db.bindings := by
  induction writes generalizing db with
  | nil => exact ⟨rfl, rfl⟩
  | cons w writes ih => exact ih (db.replaceFormula w)

theorem Bound.orKept (h : db.Bound) {r : Except Error Database} (done : ∀ db', r = .ok db' → db'.Bound) :
    (db.orKept r).Bound :=
  orKept_of h done

/-- Every write leaves bindings bound, if only backups are restored in which they are. -/
theorem Write.bound (w : Write) (h : db.Bound) (backups : ∀ backup, w = .restore (some backup) → backup.Bound) :
    (w.run db).Bound := by
  cases w with
  | formula w update refreshed resolvedAt =>
      refine h.orKept fun db' mapped => ?_
      obtain ⟨⟨id, _⟩, written, rfl⟩ := ok_of_map mapped
      obtain ⟨groups, bindings⟩ := setNeedsAll_groups refreshed (db.putFormula w)
      rw [writeFormula_ok written]
      exact h.congr groups bindings
  | replace writes => exact h.congr (replaceAll_groups _ db).1 (replaceAll_groups _ db).2
  | delete name =>
      simp only [run, deleteFormula]
      split
      · exact h
      · exact h.congr rfl rfl
  | metadata name json => exact h.congr rfl rfl
  | bump => exact h.congr rfl rfl
  | restore backup =>
      cases backup with
      | none => exact h
      | some backup => exact (backups backup rfl).congr rfl rfl
  | setting key value apart => exact h.congr rfl rfl
  | stamp =>
      refine h.orKept fun db' stamped => ?_
      obtain ⟨-, stamped⟩ := ok_of_else stamped
      split at stamped <;> cases stamped
      · exact h
      · exact h.congr rfl rfl
  | group name row update =>
      refine h.orKept fun db' mapped => ?_
      obtain ⟨_, written, rfl⟩ := ok_of_map mapped
      cases (ok_of_else written).2
      exact h.writeGroup name _
  | deleteGroup name => exact h.deleted name
  | renameGroup old new => exact h.orKept fun db' done => h.renamed done
  | binding name row update =>
      refine h.orKept fun db' mapped => ?_
      obtain ⟨_, written, rfl⟩ := ok_of_map mapped
      obtain ⟨known, written⟩ := ok_of_else written
      cases (ok_of_else written).2
      exact h.writeBinding name (by simpa using known)
  | deleteBinding name => exact h.deleteBinding name

end Database

end SeriesLang
