import SeriesLang.Engine.Group
import SeriesLang.Proofs.Database.Writes
import SeriesLang.Proofs.Engine.Moves

/-! # What a call comes to

Behind a cache that can be trusted, what a call answers and what it makes of the tables can be told from the
operators, the series and the tables alone.
-/

namespace SeriesLang

namespace Registration

/-- What it comes to when a formula is registered. -/
def outcome (r : Registry) (store : Store) (db : Database) (name text : String)
    (options : RegisterOptions) : Except Error (Nat × Database) := do
  let e ← Expr.ofText text
  r.checkTree e
  if db.formulas.contains name && !options.update then .error (.formulaExists name)
  else
    let (w, refreshed) ← (plan r store name text e options ((db.formulas.row? name).map FormulaRow.metadata)
      (db.dependents name)).run db.catalog
    db.writeFormula w options.update refreshed (some db.epoch)

end Registration

namespace Renaming

/-- What it comes to when a series is renamed. -/
def outcome (r : Registry) (store : Store) (db : Database) (old new : String) :
    Except Error (List String × Database) := do
  let formulas ← readAll db
  let conflicts := (readers new formulas).map Prod.fst
  if !conflicts.isEmpty then .error (.renameConflict conflicts)
  else
    let changed := changes old new formulas
    if changed.isEmpty then .ok ([], db)
    else
      let writes ← (plan r store db old new formulas).run db.catalog
      .ok (changed.map Prod.fst, (db.replaceFormulas (writes.filterMap id)).2)

end Renaming

namespace Action

variable {α β : Type} {s : Session}

/-- An action answers as the outcome says, and leaves the tables of the outcome, or those from before if it
    fails. -/
def Comes (x : Action α) (s : Session) (outcome : Except Error (α × Database)) : Prop :=
  (x s).1 = outcome.map Prod.fst ∧ (x s).2.database = s.database.orKept (outcome.map Prod.snd)

theorem Comes.pure (a : α) : Comes (pure a) s (.ok (a, s.database)) :=
  ⟨rfl, rfl⟩

/-- What would come after a failure does not count. -/
theorem Comes.throw {e : Error} {f : α → Action β} : Comes ((throw e : Action α) >>= f) s (.error e) :=
  ⟨rfl, rfl⟩

theorem Comes.write (f : Database → Except Error (α × Database)) : Comes (write f) s (f s.database) := by
  unfold Comes Action.write
  cases f s.database <;> exact ⟨rfl, rfl⟩

theorem Comes.written {f : Database → Except Error (α × Database)} {g : α → β}
    {outcome : Except Error (β × Database)}
    (same : (f s.database).map (fun p => (g p.1, p.2)) = outcome) :
    Comes (Action.write f >>= fun a => clearCaches >>= fun _ => Pure.pure (g a)) s outcome := by
  subst same
  unfold Comes
  rw [run_bind, Action.write]
  cases f s.database <;> exact ⟨rfl, rfl⟩

theorem Comes.read {r : Except Error α} {f : α → Action β} {g : α → Except Error (β × Database)}
    (rest : ∀ a, r = .ok a → Comes (f a) s (g a)) : Comes (ofExcept r >>= f) s (r.bind g) := by
  unfold Comes
  rw [run_bind, ofExcept]
  cases hr : r with
  | ok a => exact rest a hr
  | error e => exact ⟨rfl, rfl⟩

theorem Comes.engine {f : Engine → Action β} {outcome : Except Error (β × Database)}
    (rest : Comes (f s.engine) s outcome) : Comes (Action.engine >>= f) s outcome := rest

theorem Comes.database {f : Database → Action β} {outcome : Except Error (β × Database)}
    (rest : Comes (f s.database) s outcome) : Comes (Action.database >>= f) s outcome := rest

theorem Comes.sync {f : Int → Action β} {outcome : Except Error (β × Database)}
    (rest : Comes (f s.database.epoch) s.synced outcome) : Comes (Action.sync >>= f) s outcome := rest

theorem Comes.query (h : s.Coherent) {q : Query α} {f : α → Action β}
    {g : α → Except Error (β × Database)} (rest : ∀ a, Comes (f a) (s.asked q) (g a)) :
    Comes (Action.query q >>= f) s ((q.run s.database.catalog).bind g) := by
  have run : Action.query q s = (q.run s.database.catalog, s.asked q) := Prod.ext (h.answer q) rfl
  unfold Comes
  rw [run_bind, run]
  cases q.run s.database.catalog with
  | ok a => exact rest a
  | error e => exact ⟨rfl, rfl⟩

theorem Comes.ite {c : Prop} [Decidable c] {x y : Action α} {yes no : Except Error (α × Database)}
    (h : c → Comes x s yes) (h' : ¬c → Comes y s no) :
    Comes (if c then x else y) s (if c then yes else no) := by
  split
  · rename_i hc
    exact h hc
  · rename_i hc
    exact h' hc

end Action

namespace Engine

open SeriesLang.Action

variable {s : Session}

theorem register_comes (h : s.Trusted) (name text : String) (options : RegisterOptions) :
    Comes (register name text options) s
      (Registration.outcome s.engine.registry s.engine.store s.database name text options) := by
  unfold register
  refine Comes.read (fun e _ => Comes.engine (Comes.read fun _ _ => Comes.sync (Comes.engine
    (Comes.database ?_))))
  refine .ite (fun _ => .throw) (fun _ => ?_)
  rw [Session.synced_registry, Session.synced_store]
  exact Comes.query h.synced (fun (w, refreshed) => .written (congrFun Except.map_id _))

theorem renameReferences_comes (h : s.Trusted) (old new : String) :
    Comes (renameReferences old new) s
      (Renaming.outcome s.engine.registry s.engine.store s.database old new) := by
  unfold renameReferences
  refine Comes.sync (Comes.engine (Comes.database (Comes.read fun formulas _ => ?_)))
  refine .ite (fun _ => .throw) (fun _ => ?_)
  refine .ite (fun _ => .pure _) (fun _ => ?_)
  rw [Session.synced_registry, Session.synced_store]
  exact Comes.query h.synced (fun writes => .written rfl)

end Engine

end SeriesLang
