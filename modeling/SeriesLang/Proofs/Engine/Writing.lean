import SeriesLang.Proofs.Engine.Commands
import SeriesLang.Proofs.Query.Ends

/-! # What commands write

Whatever a command does to the tables it does by the writes of its kind, one after the other: most commands
write at most once, an import once for each formula, and what only reads writes nothing at all.
-/

namespace SeriesLang

/-- The writes that a command may make of tables. -/
inductive Command.Issues (db : Database) : Command → Database.Write → Prop
  | register {name text options w refreshed resolvedAt}
      (planned : Registration.Planned name ((db.formulas.row? name).map FormulaRow.metadata) options.metadata w) :
      Issues db (.register name text options) (.formula w options.update refreshed resolvedAt)
  | imported {arithmetic priority name w refreshed resolvedAt} (fresh : db.formulas.contains name = false)
      (planned : Registration.Planned name none none w) :
      Issues db (.importAliases arithmetic priority) (.formula w false refreshed resolvedAt)
  | rename {old new writes} (untold : ∀ w ∈ writes, FormulaWrite.metadata w = none) :
      Issues db (.rename old new) (.replace writes)
  | updateMetadata {name json row} (stored : db.formulas.row? name = some row) :
      Issues db (.updateMetadata name json) (.metadata name (row.metadata.merge json))
  | delete {name} : Issues db (.delete name) (.delete name)
  | restore {backup} : Issues db (.restore backup) (.restore backup)
  | registerGroup {name text metadata update} :
      Issues db (.registerGroup name text metadata update) (.group name ⟨text, metadata.getD (.obj [])⟩ update)
  | registerBinding {name group binding metadata update} :
      Issues db (.registerBinding name group binding metadata update)
        (.binding name ⟨group, binding, metadata.getD (.obj [])⟩ update)

theorem Database.Write.run_formula {db db' : Database} {w : FormulaWrite} {update : Bool}
    {refreshed : List (String × List String)} {resolvedAt : Option Int} {id : Nat}
    (written : db.writeFormula w update refreshed resolvedAt = .ok (id, db')) :
    Database.Write.run db (.formula w update refreshed resolvedAt) = db' := by
  rw [run, written]
  rfl

/-- Tables become others by writes of a kind. -/
inductive Database.Written (P : Database → Database.Write → Prop) (db : Database) : Database → Prop
  | none : Written P db db
  | step {db'} (h : Written P db db') {w : Database.Write} (issued : P db' w) : Written P db (w.run db')

namespace Database.Written

variable {P : Database → Database.Write → Prop} {I : Database → Prop} {db db' db'' : Database}

theorem once {w : Database.Write} (issued : P db w) : Written P db (w.run db) :=
  .step .none issued

theorem of_eq (same : db' = db) : Written P db db' :=
  same ▸ .none

theorem trans (h : Written P db db') (h' : Written P db' db'') : Written P db db'' := by
  induction h' with
  | none => exact h
  | step _ issued ih => exact ih.step issued

/-- What one write keeps. -/
theorem keeps (h : Written P db db') (step : ∀ {db w}, P db w → I db → I (w.run db)) (before : I db) :
    I db' := by
  induction h with
  | none => exact before
  | step _ issued ih => exact step issued ih

end Database.Written

namespace Engine

open SeriesLang.Action

variable {s : Session}

/-- A registration that fails writes nothing. -/
theorem contract_register_writes (name text : String) (options : RegisterOptions) :
    Contract (· = s) (register name text options)
      (fun id t => ∃ w refreshed resolvedAt, Registration.Planned name
        ((s.database.formulas.row? name).map FormulaRow.metadata) options.metadata w ∧
        s.database.writeFormula w options.update refreshed resolvedAt = .ok (id, t.database))
      (fun t => t.database = s.database) := by
  unfold register
  refine (contract_ofExcept _ (by rfl)).bind (fun e => .assume fun _ => ?_)
  refine contract_engine.bind (fun engine => .assume fun _ => ?_)
  refine (contract_ofExcept _ (by rfl)).bind (fun _ => .assume fun _ => ?_)
  refine contract_sync.bind (fun resolvedAt => .assume fun _ => ?_)
  refine contract_engine.bind (fun engine => .assume fun _ => ?_)
  refine contract_database.bind (fun db => .assume fun found => ?_)
  subst found
  refine .ite (fun _ => ?_) (fun _ => ?_)
  · refine (Contract.throw (Q := fun _ _ => False) ?_).bind (fun _ _ h => h.elim)
    rintro _ rfl
    rfl
  · refine (contract_query _ (by rfl)).bind (fun (w, refreshed) => .assume fun planned => ?_)
    refine (contract_write (by rfl)).bind (fun id => .exists fun db => .assume fun written => ?_)
    refine (contract_clearCaches db).bind (fun _ => .pure ?_)
    rintro _ rfl
    exact ⟨w, refreshed, some resolvedAt, ((Registration.ends_plan _ _ _).runCached _ _).1 _ planned, written⟩

/-- An import writes the formulas one by one, as long as none fails. -/
theorem contract_registerAll_writes {P : Database → Database.Write → Prop}
    (imported : ∀ {db name w refreshed resolvedAt}, db.formulas.contains name = false →
      Registration.Planned name none none w → P db (.formula w false refreshed resolvedAt))
    (formulas : List (String × Expr)) :
    Contract (· = s) (registerAll formulas) (fun _ t => Database.Written P s.database t.database)
      (fun t => Database.Written P s.database t.database) := by
  induction formulas generalizing s with
  | nil =>
      refine .pure ?_
      rintro _ rfl
      exact .none
  | cons p rest ih =>
      obtain ⟨name, e⟩ := p
      unfold registerAll
      refine contract_database.bind (fun db => .assume fun found => ?_)
      subst found
      refine .ite (fun _ => ih) (fun absent => ?_)
      have absent : s.database.formulas.contains name = false := Bool.eq_false_iff.2 absent
      have nothing : (s.database.formulas.row? name).map FormulaRow.metadata = none := by
        cases stored : s.database.formulas.row? name with
        | none => rfl
        | some row => cases absent.symm.trans (Table.contains_of_row? stored)
      refine Contract.bind ((contract_register_writes name e.canonical _).weaken (fun _ _ h => h)
        (fun _ => .of_eq)) (fun _ => .ofEach fun t first => ?_)
      obtain ⟨w, refreshed, resolvedAt, planned, written⟩ := first
      rw [nothing] at planned
      have one : Database.Written P s.database t.database :=
        Database.Write.run_formula written ▸ .once (imported absent planned)
      exact (ih.weaken (fun _ _ => one.trans) (fun _ => one.trans)).bind (fun _ => .pure (fun _ h => h))

/-- A renaming that fails, or that no formula is affected by, writes nothing. -/
theorem contract_renameReferences_writes (old new : String) :
    Contract (· = s) (renameReferences old new)
      (fun _ t => t.database = s.database ∨ ∃ writes, (∀ w ∈ writes, FormulaWrite.metadata w = none) ∧
        t.database = Database.Write.run s.database (.replace writes))
      (fun t => t.database = s.database) := by
  refine (contract_renameReferences old new).weaken ?_ (fun t moves => moves.database rfl)
  rintro _ t ⟨formulas, -, -, ⟨-, rfl⟩ | ⟨writes, planned, rfl⟩⟩
  · exact .inl rfl
  · exact .inr ⟨_, ((Renaming.ends_plan _ _ _).runCached _ _).1 _ planned, rfl⟩

end Engine

namespace Command

variable {s : Session}

theorem written_of_contract {P : Database → Database.Write → Prop} {α : Type} {x : Action α}
    {Q : α → Session → Prop} {E : Session → Prop} (h : Action.Contract (· = s) x Q E)
    (success : ∀ a t, Q a t → Database.Written P s.database t.database)
    (failure : ∀ t, E t → Database.Written P s.database t.database) :
    Database.Written P s.database (x s).2.database :=
  Action.Contract.leaves (E := fun t => Database.Written P s.database t.database)
    (h.weaken success failure) rfl

theorem Issues.written {db : Database} {command : Command} {w : Database.Write} (h : Issues db command w) :
    Database.Written (Issues · command) db (w.run db) :=
  .step .none h

theorem change_database (f : Engine → Except Error Engine) (s : Session) :
    (change f s).2.database = s.database := by
  rw [change]
  cases f s.engine <;> rfl

/-- A command makes of the tables what some of its writes make of them. -/
theorem leaves_written (command : Command) (s : Session) :
    Database.Written (Issues · command) s.database (command.action s).2.database := by
  by_cases reads : command.Reads
  · exact .of_eq (reads.advances s).1
  cases command with
  | register name text options =>
      refine written_of_contract (Engine.contract_register_writes name text options) ?_ fun _ => .of_eq
      rintro _ t ⟨w, refreshed, resolvedAt, planned, written⟩
      exact Database.Write.run_formula written ▸ (Issues.register planned).written
  | rename old new =>
      refine written_of_contract (Engine.contract_renameReferences_writes old new) ?_ fun _ => .of_eq
      rintro _ t (left | ⟨writes, untold, left⟩)
      · exact .of_eq left
      · exact left ▸ (Issues.rename untold).written
  | importAliases arithmetic priority =>
      exact written_of_contract (Engine.contract_registerAll_writes Issues.imported _) (fun _ _ => id) fun _ => id
  | updateMetadata name metadata =>
      rw [action, Engine.updateMetadata, Action.run_bind]
      dsimp only [Action.database]
      cases stored : s.database.formulas.row? name with
      | none => exact .none
      | some row => exact (Issues.updateMetadata stored).written
  | delete name => exact Issues.delete.written
  | restore backup =>
      cases backup with
      | none => exact Issues.written (w := .restore none) .restore
      | some backup => exact Issues.written (w := .restore (some backup)) .restore
  | registerGroup name text metadata update =>
      rw [action, Engine.registerGroup, Action.run_bind]
      cases Expr.ofText text with
      | error e => exact .none
      | ok e =>
          dsimp only [Action.ofExcept]
          rw [Action.write_leaves]
          have issued : Issues s.database (.registerGroup name text metadata update) _ := .registerGroup
          exact issued.written
  | registerBinding name group binding metadata update =>
      rw [action, Engine.registerBinding, Action.write_leaves]
      exact Issues.registerBinding.written
  | registerOperator o => exact .of_eq (change_database _ s)
  | overrideOperator o => exact .of_eq (change_database _ s)
  | provide store => exact .of_eq (change_database _ s)
  | _ => exact absurd trivial reads

end Command

end SeriesLang
