import SeriesLang.Proofs.Engine.Edges

/-! # Runs

A run starts with an empty database and goes on with one operation of the engine after the other. Along
all of it the stored needs are the names that the stored formulas read.
-/

namespace SeriesLang

/-- A session with the backups that were made of its database, by path. -/
structure Workspace where
  session : Session
  backups : List (String × Database) := []

namespace Workspace

/-- What is left by an action, also if it fails. -/
def after {α : Type} (w : Workspace) (x : Action α) : Workspace :=
  { w with session := (x w.session).2 }

/-- What can be done next. -/
inductive Operation where
  | register (name text : String) (options : RegisterOptions)
  | rename (old new : String)
  | importAliases (arithmetic : List ArithmeticRow) (priority : List PriorityRow)
  | updateMetadata (name : String) (metadata : Json)
  | delete (name : String)
  | backup (path : String)
  | restore (path : String)
  /-- Formulas are read by evaluations too. -/
  | evaluate (text : String) (options : ReadOptions)
  /-- Series come from elsewhere. -/
  | provide (store : Store)

def Operation.run (w : Workspace) : Operation → Workspace
  | .register name text options => w.after (Engine.register name text options)
  | .rename old new => w.after (Engine.renameReferences old new)
  | .importAliases arithmetic priority => w.after (Engine.importAliases arithmetic priority)
  | .updateMetadata name metadata => w.after (Engine.updateMetadata name metadata)
  | .delete name => w.after (Engine.delete name)
  | .backup path => { w with backups := Sorted.put path w.session.database w.backups }
  | .restore path => w.after (Engine.restore (Sorted.get? path w.backups))
  | .evaluate text options => w.after (Engine.evaluate text options)
  | .provide store => { w with session.engine.store := store }

/-- A formula is only deleted if no other one needs it. -/
def Operation.Allowed (w : Workspace) : Operation → Prop
  | .delete name => w.session.database.formulas.contains name = true →
      ∀ other, other ≠ name → name ∉ w.session.database.dependencies other
  | _ => True

/-- A new engine with these operators, on an empty database. -/
def start (r : Registry) (store : Store) (config : Config) : Workspace :=
  ⟨⟨{ Engine.create store config .create with registry := r }, .create⟩, []⟩

/-- States of a run of an engine with these operators. -/
inductive Reachable (r : Registry) : Workspace → Prop
  | start (store : Store) (config : Config) : Reachable r (start r store config)
  | step {w : Workspace} (h : Reachable r w) (operation : Operation)
      (allowed : operation.Allowed w) : Reachable r (operation.run w)

variable {r : Registry} {w : Workspace}

/-- The needs are exact in the database and in every backup of it. -/
structure Sound (r : Registry) (w : Workspace) : Prop where
  session : w.session.Sound r
  backups : ∀ p ∈ w.backups, p.2.Sound r

theorem Sound.start (r : Registry) (store : Store) (config : Config) : Sound r (start r store config) where
  session := ⟨rfl, .create r, .create _ _⟩
  backups _ hp := by cases hp

theorem Sound.after {α : Type} {x : Action α} {most : Nat} (h : Sound r w)
    (moves : Action.Contract (· = w.session) x (fun _ => Session.MovesWithin w.session most)
      (Session.MovesWithin w.session most)) : Sound r (w.after x) :=
  ⟨h.session.movesWithin (moves.leaves rfl), h.backups⟩

/-- An operation leaves the needs exact. -/
theorem Sound.step (h : Sound r w) {operation : Operation} (allowed : operation.Allowed w) :
    Sound r (operation.run w) := by
  cases operation with
  | register name text options => exact h.after (Engine.moves_register name text options)
  | rename old new => exact h.after (Engine.moves_renameReferences old new)
  | importAliases arithmetic priority => exact h.after (Engine.moves_registerAll _)
  | updateMetadata name metadata => exact ⟨h.session.updateMetadata name metadata, h.backups⟩
  | delete name => exact ⟨h.session.delete allowed, h.backups⟩
  | backup path =>
      refine ⟨h.session, fun p hp => ?_⟩
      rcases Sorted.mem_put hp with rfl | hp
      · exact h.session.sound
      · exact h.backups p hp
  | restore path =>
      refine ⟨h.session.restore (fun db hdb => ?_), h.backups⟩
      exact h.backups _ (Sorted.mem_of_get? hdb)
  | evaluate text options => exact h.after (Engine.moves_evaluate text options)
  | provide store => exact ⟨⟨h.session.registry, h.session.sound, h.session.coherent⟩, h.backups⟩

theorem Reachable.sound (h : Reachable r w) : Sound r w := by
  induction h with
  | start store config => exact .start r store config
  | step _ operation allowed ih => exact ih.step allowed

/-- In every state of a run the needs that are stored with a formula are the names that its text reads,
    directly or through the stored formulas, and it does not need itself. -/
theorem dependencies_exact (h : Reachable r w) {name : String} {row : FormulaRow}
    (stored : w.session.database.formulas.row? name = some row) (store : Store) :
    ∃ e found, Expr.ofText row.text = .ok e ∧
      (Dependencies.transitive r store e).run w.session.database.catalog = .ok found ∧
      w.session.database.dependencies name = Dependencies.names found ∧
      name ∉ w.session.database.dependencies name := by
  obtain ⟨e, text, reads⟩ := h.sound.session.sound.reads stored
  obtain ⟨found, run, names⟩ := reads.transitive store
  have needs : w.session.database.dependencies name = row.needs.map Prod.fst := by
    rw [Database.dependencies, stored]
    rfl
  refine ⟨e, found, text, run, ?_, ?_⟩
  · rw [needs, names]
  · rw [needs]
    exact reads.not_mem

/-- Formulas that read each other, the first one registered twice. -/
theorem dependencies_exact_updated :
    ∃ w, Reachable .builtin w ∧ w.session.database.dependencies "sum" = ["base", "late"] ∧
      ∃ e found, Expr.ofText "(+ 1 (series \"base\"))" = .ok e ∧
        (Dependencies.transitive .builtin {} e).run w.session.database.catalog = .ok found ∧
        w.session.database.dependencies "sum" = Dependencies.names found ∧
        "sum" ∉ w.session.database.dependencies "sum" := by
  obtain ⟨w, reached, texts, needs⟩ : ∃ w, Reachable .builtin w ∧
      (w.session.database.formulas.row? "sum").map FormulaRow.text =
        some "(+ 1 (series \"base\"))" ∧
      w.session.database.dependencies "sum" = ["base", "late"] := by
    have first := (Reachable.start {} {} : Reachable .builtin _).step
      (.register "base" "(series \"early\")" { rejectUnknown := false }) trivial
    have second := first.step
      (.register "sum" "(+ 1 (series \"base\"))" { rejectUnknown := false }) trivial
    have third := second.step
      (.register "base" "(series \"late\")" { rejectUnknown := false, update := true }) trivial
    exact ⟨_, third, by decide +kernel, by decide +kernel⟩
  obtain ⟨row, stored, text⟩ := Option.map_eq_some_iff.1 texts
  obtain ⟨e, found, read, run, names, apart⟩ := dependencies_exact reached stored {}
  exact ⟨w, reached, needs, e, found, text ▸ read, run, names, apart⟩

end Workspace

end SeriesLang
