import SeriesLang.Operator.Registry
import SeriesLang.Proofs.Database.Change

/-! # Rows in step with their texts

The text of a stored formula reads as a tree that passes the checks, and the hash of the row is that of the
tree. A renaming writes canonical texts of renamed trees, which have the shape of the old ones; a row that
it writes for its needs alone keeps its text, and with it its tree.
-/

namespace SeriesLang

namespace Registry

open Expr

/-- There is nothing to check in what stands for a text. -/
theorem checkAt_of_text? {r : Registry} {parent : Path} {slot text : String} {e : Expr}
    (h : e.text? = some text) : r.checkAt parent slot e = .ok () := by
  cases e with
  | literal | symbol => rfl
  | call => cases h

variable (r : Registry) (old new : String)

mutual

/-- The check looks at operators, at how many arguments they have and at the names of keywords. -/
theorem checkAt_renameSeries (parent : Path) (slot : String) (e : Expr) :
    r.checkAt parent slot (renameSeries old new e) = r.checkAt parent slot e := by
  cases e with
  | literal | symbol => rfl
  | call c =>
      obtain ⟨op, args, kwargs⟩ := c
      have shape (s : Signature) (path : Path) :
          s.checkCall ⟨op, renamedArgs old new op args, renameKwargs old new kwargs⟩ path =
            s.checkCall ⟨op, args, kwargs⟩ path := by
        simp only [Signature.checkCall, length_renamedArgs, map_fst_renameKwargs]
      have positional (path : Path) :
          r.checkArgs path 0 (renamedArgs old new op args) = r.checkArgs path 0 args := by
        unfold renamedArgs
        split
        · exact checkArgs_renameFirst path args
        · exact checkArgs_renameArgs path 0 args
      have keywords (path : Path) := checkKwargs_renameKwargs path kwargs
      simp only [renameSeries_call, checkAt, shape, positional, keywords]

theorem checkArgs_renameFirst (path : Path) (args : List Expr) :
    r.checkArgs path 0 (renameFirst old new args) = r.checkArgs path 0 args := by
  cases args with
  | nil => rfl
  | cons e rest =>
      rw [renameFirst, checkArgs, checkArgs, checkArgs_renameArgs path 1 rest]
      congr 1
      split
      · rename_i named
        exact (checkAt_of_text? named).symm
      · exact checkAt_renameSeries path _ e

theorem checkArgs_renameArgs (path : Path) (index : Nat) (args : List Expr) :
    r.checkArgs path index (renameArgs old new args) = r.checkArgs path index args := by
  cases args with
  | nil => rfl
  | cons e rest =>
      rw [renameArgs, checkArgs, checkArgs, checkAt_renameSeries path _ e,
        checkArgs_renameArgs path (index + 1) rest]

theorem checkKwargs_renameKwargs (path : Path) (kwargs : List (String × Expr)) :
    r.checkKwargs path (renameKwargs old new kwargs) = r.checkKwargs path kwargs := by
  cases kwargs with
  | nil => rfl
  | cons p rest =>
      obtain ⟨name, e⟩ := p
      rw [renameKwargs, checkKwargs, checkKwargs, checkAt_renameSeries path _ e,
        checkKwargs_renameKwargs path rest]

end

/-- A tree in which a series was renamed passes the checks if the tree does, or it fails in the same way. -/
theorem checkTree_renameSeries (e : Expr) : r.checkTree (renameSeries old new e) = r.checkTree e :=
  checkAt_renameSeries r old new .root "" e

end Registry

namespace Database

variable {r : Registry} {db db' : Database} {name : String}

/-- A row whose text reads as a tree that passes the checks, with the hash of this tree. -/
def Checked (r : Registry) (row : FormulaRow) : Prop :=
  ∃ e, Expr.ofText row.text = .ok e ∧ r.checkTree e = .ok () ∧ row.hash = e.contentHash

/-- Neither metadata nor needs count. -/
theorem Checked.of_same {row row' : FormulaRow} (h : Checked r row) (text : row'.text = row.text)
    (hash : row'.hash = row.hash) : Checked r row' := by
  rw [Checked, text, hash]
  exact h

/-- Every row is in step with its text. -/
structure InStep (r : Registry) (db : Database) : Prop where
  table : db.formulas.Kept
  rows : ∀ {name row}, db.formulas.row? name = some row → Checked r row

theorem InStep.create : Database.create.InStep r where
  table := .empty
  rows hrow := by cases hrow

/-- The trees of the catalog pass the checks. -/
theorem InStep.checkTree (h : db.InStep r) {e : Expr} (answer : db.catalog name = .ok (some e)) :
    r.checkTree e = .ok () := by
  obtain ⟨row, hrow, read⟩ := row?_of_catalog answer
  obtain ⟨tree, same, checked, -⟩ := h.rows hrow
  cases read.symm.trans same
  exact checked

/-- A renamed tree has the shape of the old one, and every other one is as it was. -/
theorem InStep.checkTree_overlaid (h : db.InStep r) {old new : String} {changed : List (String × Expr)}
    {writes : List FormulaWrite} (renames : Renames r db old new changed writes) {tree : Expr}
    (answer : db.catalog.overlaid changed name = .ok (some tree)) : r.checkTree tree = .ok () := by
  unfold Catalog.overlaid at answer
  split at answer
  · rename_i found
    cases answer
    obtain ⟨e, stored, rfl⟩ := renames.origin _ (Sorted.mem_of_get? found)
    rw [Registry.checkTree_renameSeries]
    exact h.checkTree stored
  · exact h.checkTree answer

theorem InStep.change (h : db.InStep r) (changed : Change r db db') : db'.InStep r := by
  refine ⟨changed.table h.table, fun {name row} hrow => ?_⟩
  cases changed with
  | @register e w refreshed text checked hash =>
      have put : ∀ {row}, (db.putFormula w).formulas.row? name = some row → Checked r row := by
        intro row hput
        rw [putFormula_row?] at hput
        split at hput
        · cases hput
          exact ⟨e, text, checked, hash⟩
        · exact h.rows hput
      rcases setNeedsAll_row? hrow with ⟨-, hput⟩ | ⟨names, old, -, hput, rfl⟩
      · exact put hput
      · exact (put hput).of_same rfl rfl
  | rename renames =>
      rw [replaceFormulas_eq renames.known] at hrow
      rcases replaceAll_row? hrow with ⟨-, hold⟩ | ⟨w, hw, -, text, hash, -⟩
      · exact h.rows hold
      · obtain ⟨tree, read, answer, -⟩ := renames.renewed w hw
        exact ⟨tree, text ▸ read, h.checkTree_overlaid renames answer,
          hash.trans (renames.hashes w hw tree read)⟩

theorem InStep.deleteFormula (h : db.InStep r) (name : String) : (db.deleteFormula name).2.InStep r := by
  cases hid : db.formulas.id? name with
  | none => exact (deleteFormula_of_none hid).symm ▸ h
  | some id =>
      refine ⟨deleteFormula_table h.table name, fun {other row} hrow => ?_⟩
      rw [deleteFormula_row? hid] at hrow
      split at hrow
      · cases hrow
      · obtain ⟨old, hold, rfl⟩ := Option.map_eq_some_iff.1 hrow
        exact (h.rows hold).of_same rfl rfl

theorem InStep.setMetadata (h : db.InStep r) (name : String) (metadata : Json) :
    (db.setMetadata name metadata).2.InStep r := by
  refine ⟨h.table.modify name (fun row => { row with metadata := metadata.kept }),
    fun {other row} hrow => ?_⟩
  rw [setMetadata_row?] at hrow
  obtain ⟨old, hold, rfl⟩ := Option.map_eq_some_iff.1 hrow
  split <;> exact (h.rows hold).of_same rfl rfl

theorem InStep.lasts (r : Registry) : Lasts r (InStep r) where
  table := InStep.table
  change := InStep.change
  delete := InStep.deleteFormula
  metadata := InStep.setMetadata
  restore := fun h _ => ⟨h.table, h.rows⟩

end Database

end SeriesLang
