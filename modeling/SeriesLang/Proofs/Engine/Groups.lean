import SeriesLang.Proofs.Database.Groups
import SeriesLang.Proofs.Engine.Backups

/-! # Groups in the course of traffic

Whatever engines do and others write, whether it succeeds or not, and whatever copy is restored: every binding
names a group formula that is stored.
-/

namespace SeriesLang.Shared

variable {d : Shared} {turns : List Turn} {allowed : Shared → Turn → Prop}

/-- In every state of a run each binding names a stored group formula, and names are unique. To rename a group
    formula moves its bindings and nothing else, to delete it removes its bindings and nothing else, and a
    call that is refused changes nothing. -/
theorem bindings_bound (h : start.Course allowed turns d) :
    (∀ name b, d.database.bindings.row? name = some b → d.database.groups.contains b.group = true) ∧
    d.database.groups.names.Nodup ∧ d.database.bindings.names.Nodup ∧
    (∀ old new, let after := Database.Write.run d.database (.renameGroup old new)
      if d.database.groups.contains old = true ∧ d.database.groups.contains new = false then
        Database.GroupRenamed old new d.database after
      else after = d.database) ∧
    ∀ name, let after := Database.Write.run d.database (.deleteGroup name)
      if d.database.groups.contains name = true then Database.GroupDeleted name d.database after
      else after = d.database := by
  have bound : d.database.Bound :=
    (h.keeps (fun w _ before backups => w.bound before backups) ⟨.create, nofun⟩).1
  refine ⟨fun name b => bound.stored, bound.groups.ascending.nodup, bound.bindings.ascending.nodup,
    fun old new => ?_, bound.deleteGroup⟩
  split
  · rename_i fits
    obtain ⟨after, done, renamed⟩ := bound.renameGroup fits.1 fits.2
    simp only [Database.Write.run, done]
    exact renamed
  · rename_i refused
    exact Database.renameGroup_refused refused

/-- A binding is pointed to another group formula, one to none is refused, and what was deleted since a backup
    is restored. Then one group formula is renamed and the other one deleted. -/
theorem bindings_bound_repointed : ∃ (d : Shared) (turns : List Turn),
    start.Course (fun _ _ => True) turns d ∧ d.database.groups.names = ["mean", "sum"] ∧
    d.database.bindingsOf "sum" = [("a", 1)] ∧ d.database.bindingsOf "mean" = [("b", 2)] ∧
    Database.GroupRenamed "sum" "total" d.database
      (Database.Write.run d.database (.renameGroup "sum" "total")) ∧
    Database.GroupDeleted "mean" d.database (Database.Write.run d.database (.deleteGroup "mean")) := by
  let group (name : String) : Turn := .event (.command 0 (.registerGroup name "(+ 1 1)" none false)) (fun h => h)
  let bind (name group : String) (update : Bool) : Turn :=
    .event (.command 0 (.registerBinding name group (.obj []) none update)) (fun h => h)
  let turns := [.event (.join {} {}) (fun h => h), group "sum", group "mean", bind "a" "sum" false,
    bind "b" "sum" false, bind "b" "mean" true, bind "c" "none" false, .backup "copy",
    .event (.write (.deleteGroup "sum")) (fun h => h), .restore (some 0) "copy"]
  obtain ⟨d, run, groups, summed, averaged, fits, known⟩ : ∃ d, start.Course (fun _ _ => True) turns d ∧
      d.database.groups.names = ["mean", "sum"] ∧ d.database.bindingsOf "sum" = [("a", 1)] ∧
      d.database.bindingsOf "mean" = [("b", 2)] ∧
      (d.database.groups.contains "sum" = true ∧ d.database.groups.contains "total" = false) ∧
      d.database.groups.contains "mean" = true :=
    ⟨_, .foldl turns fun _ _ _ => trivial, by decide +kernel, by decide +kernel, by decide +kernel,
      by decide +kernel, by decide +kernel⟩
  obtain ⟨-, -, -, renames, deletes⟩ := bindings_bound run
  have renamed := renames "sum" "total"
  have deleted := deletes "mean"
  rw [if_pos fits] at renamed
  rw [if_pos known] at deleted
  exact ⟨d, turns, run, groups, summed, averaged, renamed, deleted⟩

end SeriesLang.Shared
