import SeriesLang.Proofs.Engine.Commands

/-! # Traffic on a database

Engines are opened on a database and asked to do things, and others write to its tables past them. Whatever
happens, the epoch tells whether the formulas are still the same, and an engine that finds the epoch that
it has seen has kept nothing that is out of date.
-/

namespace SeriesLang

/-- What can happen to a database that engines share. -/
inductive Event where
  /-- One more engine comes to it. -/
  | join (store : Store) (config : Config)
  | command (i : Nat) (command : Command)
  | write (w : Database.Write)

/-- The last epoch that an event can lead to from another one. -/
def Event.reach (epoch : Int) : Event → Int
  | join .. => epoch
  | command _ asked => asked.reach epoch
  | write w => w.reach epoch

namespace Shared

/-- What an event makes of engines and their database. -/
def happen (c : Shared) : Event → Shared
  | .join store config =>
    match c.database.stamp with
    | .ok database => { c with database }.join .builtin store config
    | .error _ => c
  | .command i command => c.act i (·.after command.action)
  | .write w => { c with database := w.run c.database }

/-- What some events lead to, as long as epochs do not run out. -/
inductive Run (c : Shared) : List Event → Shared → Prop
  | none : Run c [] c
  | step {events d} (h : Run c events d) (event : Event)
      (room : event.reach d.database.epoch < Database.epochBound) :
      Run c (events ++ [event]) (d.happen event)

variable {c d : Shared} {events : List Event}

theorem follows_stamp {db db' : Database} (stamped : db.stamp = .ok db')
    (room : db.epoch < Database.epochBound) : db.Follows db' := by
  have written : db.Follows (db.orKept db.stamp) := Database.Write.follows .stamp room
  rwa [stamped] at written

theorem follows_happen (c : Shared) (event : Event)
    (room : event.reach c.database.epoch < Database.epochBound) :
    c.database.Follows (c.happen event).database := by
  cases event with
  | join store config =>
      rw [happen]
      cases stamped : c.database.stamp with
      | ok db => exact follows_stamp stamped room
      | error e => exact .refl _
  | command i command =>
      rw [happen]
      rcases c.act_cases i (·.after command.action) with idle | ⟨engine, w, -, rfl, acted⟩
      · rw [idle]
        exact .refl _
      · rw [acted]
        exact (command.advances ⟨engine, c.database⟩ room).follows
  | write w => exact w.follows room

theorem Run.follows (h : c.Run events d) : c.database.Follows d.database := by
  induction h with
  | none => exact .refl _
  | step _ event room ih => exact ih.trans (follows_happen _ event room)

/-- The epoch never goes back, and moments of the same epoch have the same formulas, with the names that
    they need. So a write is only accepted if the formulas are those for which its needs were found. -/
theorem epoch_tells_formulas (h : c.Run events d) :
    c.database.epoch ≤ d.database.epoch ∧
      (d.database.epoch = c.database.epoch → d.database.formulas = c.database.formulas) ∧
      ∀ (w : FormulaWrite) (update : Bool) (refreshed : List (String × List String))
        (result : Nat × Database),
        d.database.writeFormula w update refreshed (some c.database.epoch) = .ok result →
          d.database.formulas = c.database.formulas := by
  have follows := h.follows
  refine ⟨follows.le, follows.formulas, fun w update refreshed result written => ?_⟩
  exact follows.formulas (Database.resolvedAt_of_writeFormula written).symm

/-- A second engine comes late. A registration that fails, a group and a question leave the epoch as it
    was, so a write that was resolved before them is still accepted. -/
theorem epoch_tells_formulas_group : ∃ (c d : Shared) (events : List Event), c.Run events d ∧
    c.database.formulas.names = ["base"] ∧ c.database.epoch = 2 ∧ d.database.epoch = 2 ∧
    d.database.groups.names = ["both"] ∧ d.database.formulas = c.database.formulas := by
  let register : Command := .register "base" "(series \"early\")" { rejectUnknown := false }
  let group : Command := .registerGroup "both" "(series \"base\")" none false
  let sum : FormulaWrite := ⟨"sum", "(series \"base\")", "", none, ["base"]⟩
  let first := (start.happen (.join {} {})).happen (.command 0 register)
  let last := ((first.happen (.join {} {})).happen (.command 1 register)).happen (.command 1 group)
  have run : first.Run _ last := (((Run.none.step (.join {} {}) (by decide +kernel)).step
    (.command 1 register) (by decide +kernel)).step (.command 1 group) (by decide +kernel))
  have accepted : (last.database.writeFormula sum false []
      (some first.database.epoch)).toOption.isSome = true := by decide +kernel
  obtain ⟨result, written⟩ := Option.isSome_iff_exists.1 accepted
  exact ⟨first, last, _, run, by decide +kernel, by decide +kernel, by decide +kernel,
    by decide +kernel,
    (epoch_tells_formulas run).2.2 sum false [] result (toOption_eq_some_iff.1 written)⟩

/-- An engine was there before an event, for which only the tables have moved on, or it is new, or it is
    the one that was asked. -/
theorem engine_happen {event : Event} {e : Engine} (he : e ∈ (c.happen event).engines) :
    e ∈ c.engines ∨ (∃ store config, e = .create store config (c.happen event).database) ∨
      ∃ i command engine, event = .command i command ∧ engine ∈ c.engines ∧
        (command.action ⟨engine, c.database⟩).2 = ⟨e, (c.happen event).database⟩ := by
  cases event with
  | join store config =>
      rw [happen] at he ⊢
      cases stamped : c.database.stamp with
      | error error =>
          rw [stamped] at he
          exact .inl he
      | ok db =>
          rw [stamped] at he
          rcases List.mem_append.1 he with old | new
          · exact .inl old
          · exact .inr (.inl ⟨store, config, List.mem_singleton.1 new⟩)
  | command i command =>
      rw [happen] at he ⊢
      rcases c.act_cases i (·.after command.action) with idle | ⟨engine, w, here, rfl, acted⟩
      · rw [idle] at he
        exact .inl he
      · rw [acted] at he ⊢
        rcases List.mem_or_eq_of_mem_set he with old | rfl
        · exact .inl old
        · exact .inr (.inr ⟨i, command, engine, rfl, List.mem_of_getElem? here, rfl⟩)
  | write w => exact .inl he

/-- Every engine has seen no epoch that is still to come, and one that follows the epoch keeps nothing that
    is out of date. -/
def Current (c : Shared) : Prop :=
  ∀ e ∈ c.engines, (⟨e, c.database⟩ : Session).Current

theorem Current.empty (db : Database) (backups : List (String × Database)) :
    Current ⟨[], db, backups⟩ :=
  nofun

theorem Current.happen (h : c.Current) (event : Event)
    (room : event.reach c.database.epoch < Database.epochBound) : (c.happen event).Current := by
  intro e he
  rcases engine_happen he with old | ⟨store, config, rfl⟩ | ⟨i, command, engine, rfl, mem, left⟩
  · exact (h e old).behind (follows_happen c event room)
  · exact ⟨Int.le_refl _, fun _ => FormulaCache.Coherent.create _ _⟩
  · rw [← left]
    exact (command.advances ⟨engine, c.database⟩ room).current (h engine mem)

theorem Run.current (h : c.Run events d) (current : c.Current) : d.Current := by
  induction h with
  | none => exact current
  | step _ event room ih => exact ih.happen event room

end Shared

end SeriesLang
