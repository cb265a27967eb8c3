import SeriesLang.Database.Group
import SeriesLang.Proofs.Database.Change
import SeriesLang.Proofs.Database.Epoch

/-! # What the epoch tells

Every call that changes the formulas begins a new epoch, and no call goes back to an earlier one. So
whoever finds the epoch that was there before also finds the formulas that were there before.
-/

namespace SeriesLang.Database

/-- The calls that write to the tables. -/
inductive Write where
  | formula (w : FormulaWrite) (update : Bool) (refreshed : List (String × List String))
      (resolvedAt : Option Int)
  | replace (writes : List FormulaWrite)
  | delete (name : String)
  | metadata (name : String) (json : Json)
  | bump
  /-- Without a backup there is nothing to restore. -/
  | restore (backup : Option Database)
  /-- A setting other than the epoch. -/
  | setting (key value : String) (apart : key ≠ epochKey)
  | stamp
  | group (name : String) (row : GroupRow) (update : Bool)
  | deleteGroup (name : String)
  | renameGroup (old new : String)
  | binding (name : String) (row : BindingRow) (update : Bool)
  | deleteBinding (name : String)

/-- The tables after a call: those it leaves, or those from before if it fails. -/
def orKept (db : Database) : Except Error Database → Database
  | .ok db' => db'
  | .error _ => db

/-- What holds before a call and after each success of it. -/
theorem orKept_of {db : Database} {P : Database → Prop} {r : Except Error Database} (before : P db)
    (after : ∀ db', r = .ok db' → P db') : P (db.orKept r) := by
  cases r with
  | ok db' => exact after db' rfl
  | error e => exact before

def Write.run (db : Database) : Write → Database
  | .formula w update refreshed resolvedAt =>
    db.orKept ((db.writeFormula w update refreshed resolvedAt).map Prod.snd)
  | .replace writes => (db.replaceFormulas writes).2
  | .delete name => (db.deleteFormula name).2
  | .metadata name json => (db.setMetadata name json).2
  | .bump => db.bumpEpoch
  | .restore backup => (backup.map db.restore).getD db
  | .setting key value _ => db.setSetting key value
  | .stamp => db.orKept db.stamp
  | .group name row update => db.orKept ((db.writeGroup name row update).map Prod.snd)
  | .deleteGroup name => (db.deleteGroup name).2
  | .renameGroup old new => db.orKept (db.renameGroup old new)
  | .binding name row update => db.orKept ((db.writeBinding name row update).map Prod.snd)
  | .deleteBinding name => (db.deleteBinding name).2

/-- The last epoch that a write can lead to from another one. -/
def Write.reach (epoch : Int) : Write → Int
  | .formula .. | .replace _ | .delete _ | .metadata .. | .bump => epoch + 1
  | .restore backup => (backup.map (fun db => max epoch db.epoch + 1)).getD epoch
  | .setting .. | .stamp | .group .. | .deleteGroup _ | .renameGroup .. | .binding ..
  | .deleteBinding _ => epoch

/-- Later tables have the same formulas in the same epoch, or they are in a later epoch. -/
def Follows (db db' : Database) : Prop :=
  (db'.formulas = db.formulas ∧ db'.epoch = db.epoch) ∨ db.epoch < db'.epoch

variable {db db' db'' : Database}

namespace Follows

theorem refl (db : Database) : db.Follows db :=
  .inl ⟨rfl, rfl⟩

theorem le (h : db.Follows db') : db.epoch ≤ db'.epoch := by
  rcases h with ⟨-, same⟩ | later <;> omega

theorem formulas (h : db.Follows db') (same : db'.epoch = db.epoch) : db'.formulas = db.formulas := by
  rcases h with ⟨formulas, -⟩ | later
  · exact formulas
  · omega

theorem trans (h : db.Follows db') (h' : db'.Follows db'') : db.Follows db'' := by
  have first := h.le
  have second := h'.le
  by_cases same : db''.epoch = db.epoch
  · -- The epoch in between is squeezed, so neither step has moved it.
    exact .inl ⟨(h'.formulas (by omega)).trans (h.formulas (by omega)), same⟩
  · exact .inr (by omega)

theorem orKept {r : Except Error Database} (h : ∀ db', r = .ok db' → db.Follows db') :
    db.Follows (db.orKept r) :=
  orKept_of (.refl db) h

/-- A write that leaves the formulas and the settings alone. -/
theorem of_same (formulas : db'.formulas = db.formulas) (settings : db'.settings = db.settings) :
    db.Follows db' :=
  .inl ⟨formulas, epoch_congr settings⟩

theorem setSetting (db : Database) {key : String} (value : String) (apart : key ≠ epochKey) :
    db.Follows (db.setSetting key value) := by
  refine .inl ⟨rfl, ?_⟩
  unfold epoch setting? Database.setSetting
  rw [Sorted.get?_put_of_ne apart]

end Follows

/-- A write that was resolved in some epoch is only made in that epoch. -/
theorem resolvedAt_of_writeFormula {w : FormulaWrite} {update : Bool}
    {refreshed : List (String × List String)} {expected : Int} {result : Nat × Database}
    (written : db.writeFormula w update refreshed (some expected) = .ok result) :
    expected = db.epoch := by
  obtain ⟨_, checked, -⟩ := ok_of_bind written
  exact (ok_of_then checked).1

/-- A write keeps the epoch together with the formulas, or it begins a later one. -/
theorem Write.follows (w : Write) (room : w.reach db.epoch < epochBound) : db.Follows (w.run db) := by
  cases w with
  | formula w update refreshed resolvedAt =>
      refine .orKept (fun db' mapped => .inr ?_)
      obtain ⟨⟨id, _⟩, written, rfl⟩ := ok_of_map mapped
      have epoch : (db.registered w refreshed).epoch = db.epoch + 1 := epoch_registered room
      rw [writeFormula_ok written, epoch]
      exact Int.lt_succ _
  | replace writes => exact .inr ((epoch_replaceFormulas room) ▸ Int.lt_succ _)
  | delete name =>
      rcases epoch_deleteFormula name room with same | epoch
      · rw [run, same]
        exact .refl db
      · exact .inr (epoch ▸ Int.lt_succ _)
  | metadata name json => exact .inr ((epoch_setMetadata name json room) ▸ Int.lt_succ _)
  | bump => exact .inr ((epoch_bumpEpoch room) ▸ Int.lt_succ _)
  | restore backup =>
      cases backup with
      | none => exact .refl db
      | some backup =>
          have epoch : (Write.run db (.restore (some backup))).epoch = _ := epoch_restore backup room
          exact .inr (by omega)
  | setting key value apart => exact .setSetting db value apart
  | stamp =>
      refine .orKept (fun db' stamped => ?_)
      obtain ⟨-, stamped⟩ := ok_of_else stamped
      split at stamped
      · cases stamped
        exact .refl db
      · cases stamped
        exact .setSetting db _ (by decide)
  | group name row update =>
      refine .orKept (fun db' mapped => ?_)
      obtain ⟨_, written, rfl⟩ := ok_of_map mapped
      cases (ok_of_else written).2
      exact .of_same rfl rfl
  | deleteGroup name =>
      rw [run, Database.deleteGroup]
      split
      · exact .of_same rfl rfl
      · exact .refl db
  | renameGroup old new =>
      refine .orKept (fun db' written => ?_)
      cases (ok_of_else (ok_of_else written).2).2
      exact .of_same rfl rfl
  | binding name row update =>
      refine .orKept (fun db' mapped => ?_)
      obtain ⟨_, written, rfl⟩ := ok_of_map mapped
      cases (ok_of_else (ok_of_else written).2).2
      exact .of_same rfl rfl
  | deleteBinding name => exact .of_same rfl rfl

end SeriesLang.Database
