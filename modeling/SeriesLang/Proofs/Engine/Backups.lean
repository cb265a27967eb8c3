import SeriesLang.Proofs.Engine.Traffic
import SeriesLang.Proofs.Engine.Writing

/-! # Backups in the course of traffic

Between other events the database is copied to a path, or such a copy is restored, by one of the engines or
past them. A copy stays as it is until another one takes its path.
-/

namespace SeriesLang

/-- Does an event bring a backup back? -/
def Event.Restoring : Event → Prop
  | .command _ (.restore _) => True
  | .write (.restore _) => True
  | _ => False

/-- The backup that an event brings back. -/
def Event.Brings (backup : Database) : Event → Prop
  | .command _ (.restore found) => found = some backup
  | .write (.restore found) => found = some backup
  | _ => False

theorem Event.Brings.restoring {event : Event} {backup : Database} (h : event.Brings backup) :
    event.Restoring := by
  unfold Brings at h
  split at h
  · trivial
  · trivial
  · exact h.elim

/-- What every write leaves true, if it was true of what is restored. -/
def Database.Write.Keeps (I : Database → Prop) : Prop :=
  ∀ (w : Database.Write) (db : Database), I db → (∀ backup, w = .restore (some backup) → I backup) →
    I (w.run db)

/-- What can happen to a database that engines share, with copies of it at paths. -/
inductive Turn where
  | event (event : Event) (apart : ¬event.Restoring)
  | backup (path : String)
  /-- By one of the engines, if any. -/
  | restore (i : Option Nat) (path : String)

namespace Shared

/-- The event that brings the copy at a path back. -/
def restoring (c : Shared) (i : Option Nat) (path : String) : Event :=
  let backup := Sorted.get? path c.backups
  match i with
  | none => .write (.restore backup)
  | some i => .command i (.restore backup)

/-- What becomes of it. -/
def turn (c : Shared) : Turn → Shared
  | .event event _ => c.happen event
  | .backup path => { c with backups := Sorted.put path c.database c.backups }
  | .restore i path => c.happen (c.restoring i path)

/-- The last epoch that it can lead to. -/
def reach (c : Shared) : Turn → Int
  | .event event _ => event.reach c.database.epoch
  | .backup _ => c.database.epoch
  | .restore i path => (c.restoring i path).reach c.database.epoch

/-- Epochs do not run out. -/
def Room (c : Shared) (turn : Turn) : Prop :=
  c.reach turn < Database.epochBound

instance (c : Shared) (turn : Turn) : Decidable (c.Room turn) :=
  inferInstanceAs (Decidable (c.reach turn < Database.epochBound))

/-- What turns lead to, each of which is allowed where it is taken. -/
inductive Course (c : Shared) (allowed : Shared → Turn → Prop) : List Turn → Shared → Prop
  | none : Course c allowed [] c
  | step {turns d} (h : Course c allowed turns d) (turn : Turn) (fits : allowed d turn) :
      Course c allowed (turns ++ [turn]) (d.turn turn)

variable {c d : Shared} {turns : List Turn} {allowed : Shared → Turn → Prop}

theorem happen_backups (c : Shared) (event : Event) : (c.happen event).backups = c.backups := by
  cases event with
  | join store config =>
      rw [happen]
      split <;> rfl
  | command i command =>
      rw [happen]
      rcases c.act_cases i (·.after command.action) with idle | ⟨_, _, -, rfl, acted⟩
      · rw [idle]
      · rw [acted]
        rfl
  | write w => rfl

/-- Every turn is an event, or it changes nothing but the copies. -/
theorem turn_cases (c : Shared) (turn : Turn) :
    (∃ event, c.turn turn = c.happen event ∧ c.reach turn = event.reach c.database.epoch) ∨
      ∃ path, turn = .backup path ∧
        c.turn turn = { c with backups := Sorted.put path c.database c.backups } := by
  cases turn with
  | event event apart => exact .inl ⟨event, rfl, rfl⟩
  | backup path => exact .inr ⟨path, rfl, rfl⟩
  | restore i path => exact .inl ⟨c.restoring i path, rfl, rfl⟩

theorem Course.follows (h : c.Course Room turns d) : c.database.Follows d.database := by
  induction h with
  | none => exact .refl _
  | @step turns d _ turn room ih =>
      rcases d.turn_cases turn with ⟨event, happens, reach⟩ | ⟨path, -, copied⟩
      · rw [happens]
        exact ih.trans (follows_happen d event (reach ▸ room))
      · rw [copied]
        exact ih

/-- A copy stays until another one is made at its path. -/
theorem Course.copy {path : String} (h : c.Course allowed turns d) (spared : .backup path ∉ turns) :
    Sorted.get? path d.backups = Sorted.get? path c.backups := by
  induction h with
  | none => rfl
  | @step turns d _ turn _ ih =>
      have before := ih fun mem => spared (List.mem_append_left _ mem)
      rcases d.turn_cases turn with ⟨event, happens, -⟩ | ⟨other, rfl, copied⟩
      · rw [happens, happen_backups, before]
      · have apart : other ≠ path := by
          rintro rfl
          exact spared (List.mem_append_right _ List.mem_cons_self)
        rw [copied, ← before]
        exact Sorted.get?_put_of_ne apart _ _

/-- A copy that is there is brought back, by an engine that is there. -/
theorem turn_restore {i : Option Nat} {path : String} {backup : Database}
    (found : Sorted.get? path c.backups = some backup) (here : ∀ k, i = some k → k < c.engines.length) :
    (c.turn (.restore i path)).database = c.database.restore backup := by
  cases i with
  | none => simp only [turn, restoring, found, happen, Database.Write.run, Option.map_some, Option.getD_some]
  | some k =>
      simp only [turn, restoring, found, happen, act, List.getElem?_eq_getElem (here k rfl)]
      rfl

theorem reach_restore {i : Option Nat} {path : String} {backup : Database}
    (found : Sorted.get? path c.backups = some backup) :
    c.reach (.restore i path) = max c.database.epoch backup.epoch + 1 := by
  simp only [reach, restoring, found]
  cases i <;> rfl

/-- Turns that are allowed wherever they are taken. -/
theorem Course.foldl (turns : List Turn) (fits : ∀ d, ∀ turn ∈ turns, allowed d turn) :
    c.Course allowed turns (turns.foldl turn c) := by
  induction turns using List.reverseRecOn with
  | nil => exact .none
  | append_singleton turns last ih =>
      rw [List.foldl_append]
      exact (ih fun d turn mem => fits d turn (List.mem_append_left _ mem)).step last
        (fits _ last (List.mem_append_right _ List.mem_cons_self))

variable {I : Database → Prop}

theorem keeps_happen (keeps : Database.Write.Keeps I) (c : Shared) (event : Event)
    (backups : ∀ backup, event.Brings backup → I backup) (before : I c.database) :
    I (c.happen event).database := by
  cases event with
  | join store config =>
      have stamped := keeps .stamp c.database before nofun
      simp only [Database.Write.run] at stamped
      rw [happen]
      cases found : c.database.stamp with
      | ok db => rwa [found] at stamped
      | error e => exact before
  | command i command =>
      rw [happen]
      rcases c.act_cases i (·.after command.action) with idle | ⟨engine, w, -, rfl, acted⟩
      · rw [idle]
        exact before
      · rw [acted]
        refine (command.leaves_written ⟨engine, c.database⟩).keeps (fun issued h => ?_) before
        refine keeps _ _ h fun backup same => ?_
        subst same
        cases issued
        exact backups backup rfl
  | write w =>
      refine keeps w c.database before fun backup same => ?_
      subst same
      exact backups backup rfl

/-- What every write leaves true stays so of the database and of its copies. -/
theorem Course.keeps (h : c.Course allowed turns d) (keeps : Database.Write.Keeps I)
    (before : I c.database ∧ ∀ p ∈ c.backups, I p.2) : I d.database ∧ ∀ p ∈ d.backups, I p.2 := by
  induction h with
  | none => exact before
  | @step turns d _ turn _ ih =>
      obtain ⟨database, copies⟩ := ih
      cases turn with
      | event event apart =>
          refine ⟨keeps_happen keeps d event (fun _ brings => absurd brings.restoring apart) database, ?_⟩
          rw [turn, happen_backups]
          exact copies
      | backup path =>
          refine ⟨database, fun p hp => ?_⟩
          rcases Sorted.mem_put hp with rfl | hp
          · exact database
          · exact copies p hp
      | restore i path =>
          refine ⟨keeps_happen keeps d _ (fun backup brings => ?_) database, ?_⟩
          · have found : Sorted.get? path d.backups = some backup := by
              cases i <;> exact brings
            exact copies _ (Sorted.mem_of_get? found)
          · rw [turn, happen_backups]
            exact copies

end Shared

end SeriesLang
