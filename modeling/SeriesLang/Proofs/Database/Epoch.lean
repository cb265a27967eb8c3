import SeriesLang.Database.Formula
import SeriesLang.Proofs.Database.Catalog
import SeriesLang.Proofs.Decimal.Spelling

/-! # Epochs

The epoch is read back as it was set, and every write to the formulas moves it up, as long as it is not
the last integer of 64 bits.
-/

namespace SeriesLang.Database

variable {db db' : Database}

/-- Epochs are below this bound. -/
def epochBound : Int := 2 ^ 63

theorem one_le_epoch (db : Database) : 1 ≤ db.epoch := by
  unfold epoch
  split <;> omega

theorem epoch_congr (h : db'.settings = db.settings) : db'.epoch = db.epoch := by
  unfold epoch setting?
  rw [h]

/-- An epoch is read back as it was set. -/
theorem epoch_setEpoch (db : Database) {n : Int} (first : 1 ≤ n) (last : n < epochBound) :
    (db.setEpoch n).epoch = n := by
  have text : (db.setEpoch n).setting? epochKey = some (toString n) := by
    rw [setEpoch, setSetting, setting?, Sorted.get?_put, if_pos rfl]
  have number : Numeral.int? (toString n) = some n := by
    obtain ⟨numeral, read, integer, value⟩ := Numeral.ofChars?_int n
    rw [Numeral.int?, read]
    simp only [integer, if_true, value]
  have fits : Word.ofInt? n = some n := by
    refine Word.ofInt?_eq_some_iff.2 ⟨rfl, ?_⟩
    unfold epochBound at last
    unfold Word.Fits
    omega
  rw [epoch, text, Option.bind_some, number, Option.bind_some, fits]
  exact Int.max_eq_left first

theorem epochAfter_eq {n : Int} (first : 1 ≤ n) (last : n + 1 < epochBound) : epochAfter n = n + 1 := by
  refine Word.wrap_of_fits ?_
  unfold epochBound at last
  unfold Word.Fits
  omega

theorem epoch_bumpEpoch (room : db.epoch + 1 < epochBound) : db.bumpEpoch.epoch = db.epoch + 1 := by
  have first := db.one_le_epoch
  rw [bumpEpoch, epochAfter_eq first room, epoch_setEpoch _ (by omega) room]

/-- After a write that leaves the settings alone, the next epoch begins. -/
theorem epoch_bumpEpoch_of (same : db'.settings = db.settings) (room : db.epoch + 1 < epochBound) :
    db'.bumpEpoch.epoch = db.epoch + 1 := by
  have before := epoch_congr same
  rw [epoch_bumpEpoch (before.symm ▸ room), before]

theorem setNeedsAll_settings (needs : List (String × List String)) (db : Database) :
    (db.setNeedsAll needs).settings = db.settings := by
  induction needs generalizing db with
  | nil => rfl
  | cons p needs ih => exact ih (db.setNeeds p.1 p.2)

theorem epoch_registered {w : FormulaWrite} {refreshed : List (String × List String)}
    (room : db.epoch + 1 < epochBound) : (db.registered w refreshed).epoch = db.epoch + 1 :=
  epoch_bumpEpoch_of (setNeedsAll_settings refreshed (db.putFormula w)) room

theorem replaceAll_settings (writes : List FormulaWrite) (db : Database) :
    (writes.foldl replaceFormula db).settings = db.settings := by
  induction writes generalizing db with
  | nil => rfl
  | cons w writes ih => exact ih (db.replaceFormula w)

theorem epoch_replaceFormulas {writes : List FormulaWrite} (room : db.epoch + 1 < epochBound) :
    (db.replaceFormulas writes).2.epoch = db.epoch + 1 :=
  epoch_bumpEpoch_of (replaceAll_settings _ db) room

theorem epoch_setMetadata (name : String) (metadata : Json) (room : db.epoch + 1 < epochBound) :
    (db.setMetadata name metadata).2.epoch = db.epoch + 1 :=
  epoch_bumpEpoch_of rfl room

/-- A deletion begins a new epoch, unless there is nothing to delete. -/
theorem epoch_deleteFormula (name : String) (room : db.epoch + 1 < epochBound) :
    (db.deleteFormula name).2 = db ∨ (db.deleteFormula name).2.epoch = db.epoch + 1 := by
  cases hid : db.formulas.id? name with
  | none => exact .inl (deleteFormula_of_none hid)
  | some id =>
      refine .inr ?_
      simp only [deleteFormula, hid]
      exact epoch_bumpEpoch_of rfl room

theorem epoch_restore (backup : Database) (room : max db.epoch backup.epoch + 1 < epochBound) :
    (db.restore backup).epoch = max db.epoch backup.epoch + 1 := by
  have first := db.one_le_epoch
  rw [restore, epochAfter_eq (by omega) room, epoch_setEpoch _ (by omega) room]

end SeriesLang.Database
