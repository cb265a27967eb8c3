import SeriesLang.Proofs.Database.Contents
import SeriesLang.Proofs.Engine.Backups
import SeriesLang.Proofs.Engine.Failures

/-! # Restoring a backup

A backup that is restored brings back everything but the epoch, whatever was written since and however often
other backups were restored. What is done next comes to the same as it would have when the backup was made,
and the epoch is one that nobody has seen before.
-/

namespace SeriesLang

namespace Database

variable {db db' : Database} {α : Type}

theorem SameContents.catalog (h : db.SameContents db') : db'.catalog = db.catalog :=
  funext fun name => catalog_congr (by rw [h.formulas])

theorem SameContents.dependencies (h : db.SameContents db') : db'.dependencies = db.dependencies := by
  funext name
  unfold Database.dependencies
  rw [h.formulas]

theorem SameContents.dependents (h : db.SameContents db') : db'.dependents = db.dependents := by
  funext name
  unfold Database.dependents
  rw [h.formulas]

theorem SameAnswer.fst {r r' : Except Error (α × Database)} (h : SameAnswer r r') :
    r'.map Prod.fst = r.map Prod.fst := by
  cases h with
  | ok both => exact congrArg Except.ok both.1.symm
  | error e => rfl

end Database

open Database (SameContents SameAnswer)

variable {db db' : Database}

theorem Registration.sameAnswer (h : db.SameContents db') (r : Registry) (store : Store) (name text : String)
    (options : RegisterOptions) :
    SameAnswer (outcome r store db name text options) (outcome r store db' name text options) := by
  unfold outcome
  rw [h.formulas, h.dependents, h.catalog]
  refine .bind fun e => .bind fun _ => .ite (.error _) (.bind fun (w, refreshed) => ?_)
  simp only [Database.writeFormula_free]
  exact h.writeFormula w options.update refreshed

theorem Renaming.sameAnswer (h : db.SameContents db') (r : Registry) (store : Store) (old new : String) :
    SameAnswer (outcome r store db old new) (outcome r store db' old new) := by
  have plans (formulas) : plan r store db' old new formulas = plan r store db old new formulas := by
    unfold plan affected
    rw [h.dependents]
  unfold outcome readAll
  rw [h.formulas, h.catalog]
  refine .bind fun formulas => .ite (.error _) (.ite (.ok ⟨rfl, h⟩) ?_)
  rw [plans]
  exact .bind fun writes => .ok ⟨rfl, h.replaceFormulas _⟩

namespace Submission

/-- What a call comes to does not depend on the epoch. -/
theorem sameAnswer (h : db.SameContents db') (r : Registry) (store : Store) (call : Submission) :
    SameAnswer (call.outcome r store db) (call.outcome r store db') := by
  cases call with
  | register name text options => exact Registration.sameAnswer h r store name text options
  | rename old new => exact Renaming.sameAnswer h r store old new
  | updateMetadata name metadata =>
      simp only [outcome, h.formulas]
      cases db.formulas.row? name with
      | none => exact .ok ⟨rfl, h⟩
      | some row => exact .ok ⟨congrArg (Table.contains · name) h.formulas.symm, h.setMetadata name _⟩
  | registerGroup name text metadata update => exact .bind fun _ => h.writeGroup name _ update
  | renameGroup old new => exact (h.renameGroup old new).map fun same => ⟨rfl, same⟩
  | registerBinding name group binding metadata update => exact h.writeBinding name _ update

variable {t t' : Session}

/-- Engines with the same operators and series, whose caches can be trusted, answer alike on databases that
    differ in nothing but the epoch, and leave them so. -/
theorem action_sameContents (h : t.database.SameContents t'.database) (trusted : t.Trusted)
    (trusted' : t'.Trusted) (registry : t'.engine.registry = t.engine.registry)
    (store : t'.engine.store = t.engine.store) (call : Submission) :
    (call.action t').1 = (call.action t).1 ∧
      (call.action t).2.database.SameContents (call.action t').2.database := by
  obtain ⟨answers, leaves⟩ := comes trusted call
  obtain ⟨answers', leaves'⟩ := comes trusted' call
  have same := call.sameAnswer h t.engine.registry t.engine.store
  rw [answers, answers', leaves, leaves', registry, store]
  exact ⟨same.fst, h.orKept (same.map And.right)⟩

end Submission

namespace Shared

variable {c d : Shared} {turns : List Turn}

/-- A backup was made at some moment, and then anything happened. Once it is restored, all that is stored is
    as it was at that moment, apart from the epoch, which is later than every one before. It stays so when the
    same is written to both: a call gives the ids that it would have given at that moment, and where the
    engines have the same operators and series it gives the same answer. -/
theorem restored {path : String} (h : (c.turn (.backup path)).Course Room turns d)
    (spared : .backup path ∉ turns) {i : Option Nat} (here : ∀ k, i = some k → k < d.engines.length)
    (room : d.Room (.restore i path)) :
    let now := (d.turn (.restore i path)).database
    c.database.SameContents now ∧ now.dependencies = c.database.dependencies ∧
    now.dependents = c.database.dependents ∧
    (∀ (m : Shared) (since : List Turn), m.Course Room since d → m.database.epoch < now.epoch) ∧
    ∀ ws : List Database.Write, (∀ w ∈ ws, w.Free) →
      (ws.foldl Database.Write.run c.database).SameContents (ws.foldl Database.Write.run now) ∧
      ∀ t t' : Session, t.database = ws.foldl Database.Write.run c.database →
        t'.database = ws.foldl Database.Write.run now → ∀ call : Submission,
        (∀ a a' u u', call.action t = (.ok a, u) → call.action t' = (.ok a', u') →
          call.id? a' = call.id? a) ∧
        (t.Trusted → t'.Trusted → t'.engine.registry = t.engine.registry →
          t'.engine.store = t.engine.store →
          (call.action t').1 = (call.action t).1 ∧
            (call.action t).2.database.SameContents (call.action t').2.database) := by
  intro now
  have found : Sorted.get? path d.backups = some c.database :=
    (h.copy spared).trans (Sorted.get?_put_self path c.database c.backups)
  have restored : now = d.database.restore c.database := turn_restore found here
  have same : c.database.SameContents now := restored ▸ .setEpoch c.database _
  rw [Room, reach_restore found] at room
  have epoch : now.epoch = max d.database.epoch c.database.epoch + 1 :=
    restored ▸ Database.epoch_restore c.database room
  refine ⟨same, same.dependencies, same.dependents, fun m since run => ?_, fun ws free => ?_⟩
  · have seen := run.follows.le
    omega
  · have kept := Database.writes_sameContents ws free same
    refine ⟨kept, fun t t' left left' call => ⟨fun a a' u u' done done' => ?_,
      fun trusted trusted' registry store => ?_⟩⟩
    · rw [Submission.id?_of_succeeds done, Submission.id?_of_succeeds done', left, left']
      cases call with
      | register name text options => exact congrArg (fun t => some (Table.idFor t name)) kept.formulas
      | registerGroup name => exact congrArg (fun t => some (Table.idFor t name)) kept.groups
      | registerBinding name => exact congrArg (fun t => some (Table.idFor t name)) kept.bindings
      | rename | updateMetadata | renameGroup => rfl
    · rw [← left, ← left'] at kept
      exact Submission.action_sameContents kept trusted trusted' registry store call

/-- A formula is registered after a backup, which is restored, and another one is deleted. One of two engines
    restores the backup again, and the next formula gets the id that it would have got. -/
theorem restored_twice : ∃ (c d : Shared) (turns : List Turn),
    (c.turn (.backup "copy")).Course Room turns d ∧ c.database.formulas.names = ["base"] ∧
    c.database.epoch = 2 ∧ d.database.formulas.names = [] ∧ d.database.epoch = 5 ∧
    c.database.SameContents (d.turn (.restore (some 1) "copy")).database ∧
    d.database.epoch < (d.turn (.restore (some 1) "copy")).database.epoch ∧
    ∀ (call : Submission) t t' a a' u u', t.database = c.database →
      t'.database = (d.turn (.restore (some 1) "copy")).database → call.action t = (.ok a, u) →
      call.action t' = (.ok a', u') → call.id? a' = call.id? a := by
  let register (name : String) : Turn :=
    .event (.command 0 (.register name "(series \"early\")" { rejectUnknown := false })) (fun h => h)
  let delete : Turn := .event (.command 1 (.delete "base")) (fun h => h)
  let join : Turn := .event (.join {} {}) (fun h => h)
  let c := ((start.turn join).turn join).turn (register "base")
  let saved := c.turn (.backup "copy")
  let d := ((saved.turn (register "more")).turn (.restore none "copy")).turn delete
  have run : saved.Course Room [register "more", .restore none "copy", delete] d :=
    ((Course.none.step (register "more") (by decide +kernel)).step
      (.restore none "copy") (by decide +kernel)).step delete (by decide +kernel)
  have engines : d.engines.length = 2 := by decide +kernel
  obtain ⟨same, -, -, later, next⟩ := restored run (by simp [register, delete]) (i := some 1)
    (fun k here => by cases here; omega) (by decide +kernel)
  refine ⟨c, d, _, run, by decide +kernel, by decide +kernel, by decide +kernel, by decide +kernel,
    same, later d [] .none, fun call t t' a a' u u' left left' => ?_⟩
  exact ((next [] nofun).2 t t' left left' call).1 a a' u u'

end Shared

end SeriesLang
