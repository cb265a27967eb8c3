import SeriesLang.Engine.Evaluate
import SeriesLang.Proofs.Database.Change
import SeriesLang.Proofs.Engine.Action

/-! # Moves of a session

Registering and renaming come down to a few moves of a session: the engine follows the epoch, it asks, and
it writes what it has planned. Behind a cache that can be trusted, a plan says what is true of the
database, so that every write is a change of a known kind.
-/

namespace SeriesLang

namespace Session

/-- What a registration is planned from. -/
def plan (s : Session) (name text : String) (e : Expr) (options : RegisterOptions) :
    Query (FormulaWrite × List (String × List String)) :=
  Registration.plan s.engine.registry s.engine.store name text e options
    ((s.database.formulas.row? name).map FormulaRow.metadata) (s.database.dependents name)

/-- After a registration as it was planned. -/
def registered (s : Session) (name text : String) (e : Expr) (options : RegisterOptions)
    (w : FormulaWrite) (refreshed : List (String × List String)) : Session :=
  (s.asked (s.plan name text e options)).written (s.database.registered w refreshed)

/-- What a renaming is planned from. -/
def renamePlan (s : Session) (old new : String) (formulas : List (String × String × Expr)) :
    Query (List (Option FormulaWrite)) :=
  Renaming.plan s.engine.registry s.engine.store s.database old new formulas

/-- After a renaming as it was planned. -/
def renamed (s : Session) (old new : String) (formulas : List (String × String × Expr))
    (writes : List (Option FormulaWrite)) : Session :=
  (s.asked (s.renamePlan old new formulas)).written (s.database.replaceFormulas (writes.filterMap id)).2

/-- What becomes of a session while formulas are registered and renamed by so many writes. What is
    written was planned by an engine that had followed the epoch. -/
inductive Moves (s : Session) : Nat → Session → Prop
  | none : Moves s 0 s
  | sync {n t} (h : Moves s n t) : Moves s n t.synced
  | ask {n t} {α : Type} (h : Moves s n t) (q : Query α) : Moves s n (t.asked q)
  | register {n t name text e options w refreshed} (h : Moves s n t)
      (fresh : t.engine.seenEpoch = t.database.epoch) (read : Expr.ofText text = .ok e)
      (checked : t.engine.registry.checkTree e = .ok ())
      (planned : t.answer (t.plan name text e options) = .ok (w, refreshed)) :
      Moves s (n + 1) (t.registered name text e options w refreshed)
  | rename {n t old new formulas writes} (h : Moves s n t)
      (fresh : t.engine.seenEpoch = t.database.epoch)
      (read : Renaming.readAll t.database = .ok formulas)
      (planned : t.answer (t.renamePlan old new formulas) = .ok writes) :
      Moves s (n + 1) (t.renamed old new formulas writes)

variable {s t : Session} {n : Nat}

theorem Moves.trans {u : Session} {k : Nat} (h : Moves s n t) (g : Moves t k u) :
    Moves s (n + k) u := by
  induction g with
  | none => exact h
  | sync _ ih => exact ih.sync
  | ask _ q ih => exact ih.ask q
  | register _ fresh read checked planned ih => exact ih.register fresh read checked planned
  | rename _ fresh read planned ih => exact ih.rename fresh read planned

/-- What becomes of a session by at most so many writes. -/
def MovesWithin (s : Session) (most : Nat) (t : Session) : Prop :=
  ∃ n ≤ most, Moves s n t

theorem MovesWithin.mono {most more : Nat} (h : MovesWithin s most t) (le : most ≤ more) :
    MovesWithin s more t := by
  obtain ⟨n, hn, moves⟩ := h
  exact ⟨n, by omega, moves⟩

theorem MovesWithin.trans {u : Session} {most more : Nat} (h : MovesWithin s most t)
    (g : MovesWithin t more u) : MovesWithin s (most + more) u := by
  obtain ⟨n, hn, first⟩ := h
  obtain ⟨k, hk, second⟩ := g
  exact ⟨n + k, by omega, first.trans second⟩

theorem Moves.registry (h : Moves s n t) : t.engine.registry = s.engine.registry := by
  induction h with
  | none => rfl
  | sync _ ih => rw [synced_registry, ih]
  | ask _ q ih => exact ih
  | register _ _ _ _ _ ih => exact ih
  | rename _ _ _ _ ih => exact ih

theorem Moves.store (h : Moves s n t) : t.engine.store = s.engine.store := by
  induction h with
  | none => rfl
  | sync _ ih => rw [synced_store, ih]
  | ask _ q ih => exact ih
  | register _ _ _ _ _ ih => exact ih
  | rename _ _ _ _ ih => exact ih

/-- A cache that knows nothing but what the database says. -/
def Coherent (s : Session) : Prop :=
  FormulaCache.Coherent s.database.catalog s.engine.trees

/-- A cache that is coherent unless the epoch has moved since. -/
def Trusted (s : Session) : Prop :=
  s.engine.seenEpoch = s.database.epoch → s.Coherent

theorem Coherent.written (s : Session) (db : Database) : (s.written db).Coherent :=
  .clear _ _

theorem Coherent.asked {α : Type} (h : s.Coherent) (q : Query α) : (s.asked q).Coherent :=
  (Query.runCached_coherent h q).2

theorem Coherent.answer {α : Type} (h : s.Coherent) (q : Query α) :
    s.answer q = q.run s.database.catalog :=
  (Query.runCached_coherent h q).1

theorem Trusted.synced (h : s.Trusted) : s.synced.Coherent := by
  unfold Session.synced Engine.sync
  split
  · rename_i same
    exact h same
  · exact .clear _ _

theorem Coherent.synced (h : s.Coherent) : s.synced.Coherent :=
  Trusted.synced (fun _ => h)

theorem Moves.coherent (h : Moves s n t) (coherent : s.Coherent) : t.Coherent := by
  induction h with
  | none => exact coherent
  | sync _ ih => exact ih.synced
  | ask _ q ih => exact ih.asked q
  | register => exact .written _ _
  | rename => exact .written _ _

theorem Moves.trusted (h : Moves s n t) (trusted : s.Trusted) : t.Trusted := by
  induction h with
  | none => exact trusted
  | sync _ ih => exact fun _ => ih.synced
  | ask _ q ih => exact fun same => (ih same).asked q
  | register => exact fun _ => .written _ _
  | rename => exact fun _ => .written _ _

/-- Behind a cache that can be trusted, every write is a change of a known kind. -/
theorem Moves.preserves {I : Database → Prop} (h : Moves s n t) (trusted : s.Trusted)
    (kept : ∀ {db}, I db → db.formulas.Kept)
    (step : ∀ {db db'}, I db → Database.Change s.engine.registry db db' → I db') (before : I s.database) :
    I t.database := by
  induction h with
  | none => exact before
  | sync _ ih => exact ih
  | ask _ q ih => exact ih
  | register h fresh read checked planned ih =>
      rw [(h.trusted trusted fresh).answer, Session.plan, h.registry] at planned
      exact step ih (.ofPlan read (h.registry ▸ checked) planned)
  | rename h fresh read planned ih =>
      rw [(h.trusted trusted fresh).answer, renamePlan, h.registry] at planned
      exact step ih (.rename (.ofPlan (kept ih) read planned))

end Session

namespace Engine

open SeriesLang.Action

variable {s : Session}

/-- A registration either comes to an end before anything is written, or its tree has passed the checks and
    it is done as planned. -/
theorem contract_register_checked (name text : String) (options : RegisterOptions) :
    Contract (· = s) (register name text options)
      (fun _ t => ∃ e w refreshed, Expr.ofText text = .ok e ∧
        s.engine.registry.checkTree e = .ok () ∧
        s.synced.answer (s.synced.plan name text e options) = .ok (w, refreshed) ∧
        t = s.synced.registered name text e options w refreshed)
      (fun t => Session.Moves s 0 t) := by
  unfold register
  refine (contract_ofExcept _ .none).bind (fun e => .assume fun read => ?_)
  refine contract_engine.bind (fun engine => .assume fun found => ?_)
  refine (contract_ofExcept _ .none).bind (fun _ => .assume fun checked => ?_)
  subst found
  refine contract_sync.bind (fun resolvedAt => .assume fun _ => ?_)
  refine contract_engine.bind (fun engine => .assume fun same => ?_)
  refine contract_database.bind (fun db => .assume fun found => ?_)
  subst same found
  refine .ite (fun _ => ?_) (fun _ => ?_)
  · refine (Contract.throw (Q := fun _ _ => False) ?_).bind (fun _ _ h => h.elim)
    rintro _ rfl
    exact Session.Moves.none.sync
  · have asked : Session.Moves s 0 (s.synced.asked (s.synced.plan name text e options)) :=
      Session.Moves.none.sync.ask _
    refine (contract_query (s.synced.plan name text e options) asked).bind
      (fun (w, refreshed) => .assume fun planned => ?_)
    refine (contract_write asked).bind (fun id => .exists fun db => .assume fun written => ?_)
    refine (contract_clearCaches db).bind (fun _ => .pure fun t left => ?_)
    cases Database.writeFormula_ok written
    exact ⟨e, w, refreshed, read, checked, planned, left⟩

/-- A registration either comes to an end before anything is written, or it is done as planned. -/
theorem contract_register (name text : String) (options : RegisterOptions) :
    Contract (· = s) (register name text options)
      (fun _ t => ∃ e w refreshed, Expr.ofText text = .ok e ∧
        s.synced.answer (s.synced.plan name text e options) = .ok (w, refreshed) ∧
        t = s.synced.registered name text e options w refreshed)
      (fun t => Session.Moves s 0 t) := by
  refine (contract_register_checked name text options).weaken ?_ (fun _ h => h)
  rintro _ t ⟨e, w, refreshed, read, -, planned, left⟩
  exact ⟨e, w, refreshed, read, planned, left⟩

/-- A registration is done as planned where nothing speaks against it. -/
theorem register_done {name text : String} {options : RegisterOptions} {e : Expr} {w : FormulaWrite}
    {refreshed : List (String × List String)} (read : Expr.ofText text = .ok e)
    (checked : s.engine.registry.checkTree e = .ok ())
    (fresh : s.database.formulas.contains name = false) (named : w.name = name)
    (planned : s.synced.answer (s.synced.plan name text e options) = .ok (w, refreshed)) :
    register name text options s = (.ok (s.database.formulas.idFor name),
      s.synced.registered name text e options w refreshed) := by
  have asked : query (s.synced.plan name text e options) s.synced =
      (.ok (w, refreshed), s.synced.asked (s.synced.plan name text e options)) := Prod.ext planned rfl
  have written : write (·.writeFormula w options.update refreshed (some s.database.epoch))
      (s.synced.asked (s.synced.plan name text e options)) =
      (.ok (s.database.formulas.idFor name),
        { s.synced.asked (s.synced.plan name text e options) with
          database := s.database.registered w refreshed }) := by
    have done : s.database.writeFormula w options.update refreshed (some s.database.epoch) =
        .ok (s.database.formulas.idFor name, s.database.registered w refreshed) := by
      simp only [Database.writeFormula, Database.checkEpoch, named, fresh]
      rfl
    simp only [write, Session.asked_database, Session.synced_database, done]
  unfold register
  simp only [run_bind, Action.ofExcept, read, Action.engine, checked, Action.sync, Action.database,
    fresh, Bool.false_and, Bool.false_eq_true, if_false]
  simp only [Session.plan, Session.synced] at asked written
  simp only [asked, written]
  rfl

/-- A formula under a new name that nothing depends on is registered as soon as what it reads can be found. -/
theorem register_lone {name text : String} (options : RegisterOptions) {e : Expr} {found : Dependencies}
    {info : Option SeriesMeta} (trusted : s.Trusted) (read : Expr.ofText text = .ok e)
    (checked : s.engine.registry.checkTree e = .ok ())
    (fresh : s.database.formulas.contains name = false) (alone : s.database.dependents name = [])
    (run : (Dependencies.ofFormula s.engine.registry s.engine.store name e).run s.database.catalog =
      .ok found) (known : found.rejectUnknown = .ok ())
    (derived : (Dependencies.firstInfo s.engine.store e).run s.database.catalog = .ok info) :
    ∃ w, register name text options s = (.ok (s.database.formulas.idFor name),
        s.synced.registered name text e options w []) ∧
      (s.synced.plan name text e options).run s.database.catalog = .ok (w, []) ∧ w.name = name ∧
      w.needs = found.names ∧
      (s.database.registered w []).catalog = s.database.catalog.overlaid [(name, e)] := by
  obtain ⟨w, planned, named, text, needs⟩ : ∃ w,
      (s.synced.plan name text e options).run s.database.catalog = .ok (w, []) ∧ w.name = name ∧
      w.text = text ∧ w.needs = found.names := by
    rw [Session.plan, Session.synced_registry, Session.synced_store, Session.synced_database, alone]
    exact Registration.plan_done run known derived
  have catalog : (s.database.registered w []).catalog = s.database.catalog.overlaid [(w.name, e)] :=
    Database.catalog_registered _ [] (text ▸ read)
  rw [named] at catalog
  exact ⟨w, register_done read checked fresh named ((trusted.synced.answer _).trans planned), planned,
    named, needs, catalog⟩

theorem moves_register (name text : String) (options : RegisterOptions) :
    Contract (· = s) (register name text options) (fun _ => Session.MovesWithin s 1)
      (Session.MovesWithin s 1) := by
  refine (contract_register_checked name text options).weaken ?_ (fun t h => ⟨0, by omega, h⟩)
  rintro _ t ⟨e, w, refreshed, read, checked, planned, rfl⟩
  exact ⟨1, Nat.le_refl _, Session.Moves.none.sync.register (Session.synced_seenEpoch s) read
    (Session.synced_registry s ▸ checked) planned⟩

theorem moves_registerAll (formulas : List (String × Expr)) :
    Contract (· = s) (registerAll formulas) (fun _ => Session.MovesWithin s formulas.length)
      (Session.MovesWithin s formulas.length) := by
  induction formulas generalizing s with
  | nil =>
      refine .pure ?_
      rintro _ rfl
      exact ⟨0, Nat.le_refl _, .none⟩
  | cons p rest ih =>
      obtain ⟨name, e⟩ := p
      unfold registerAll
      refine contract_database.bind (fun db => .assume fun _ => ?_)
      refine .ite (fun _ => ?_) (fun _ => ?_)
      · exact ih.weaken (fun _ t h => h.mono (by simp)) (fun t h => h.mono (by simp))
      · refine Contract.bind ((moves_register name e.canonical _).weaken (fun _ t h => h)
          (fun t h => h.mono (by simp))) (fun _ => .ofEach fun t first => ?_)
        have all : ∀ u, Session.MovesWithin t rest.length u →
            Session.MovesWithin s (rest.length + 1) u :=
          fun u others => (first.trans others).mono (by omega)
        exact (ih.weaken (fun _ => all) all).bind (fun _ => .pure (fun _ h => h))

/-- What a renaming is done from: the stored formulas, none of which reads the new name. -/
structure Renamable (db : Database) (new : String) (formulas : List (String × String × Expr)) : Prop where
  read : Renaming.readAll db = .ok formulas
  free : Renaming.readers new formulas = []

/-- A renaming either comes to an end before anything is written, or no formula reads the old name, or it is
    done as planned. -/
theorem contract_renameReferences (old new : String) :
    Contract (· = s) (renameReferences old new)
      (fun names t => ∃ formulas, Renamable s.database new formulas ∧
        names = (Renaming.changes old new formulas).map Prod.fst ∧
        (Renaming.changes old new formulas = [] ∧ t = s.synced ∨
          ∃ writes, s.synced.answer (s.synced.renamePlan old new formulas) = .ok writes ∧
            t = s.synced.renamed old new formulas writes))
      (fun t => Session.Moves s 0 t) := by
  unfold renameReferences
  refine contract_sync.bind (fun _ => .assume fun _ => ?_)
  refine contract_engine.bind (fun engine => .assume fun same => ?_)
  refine contract_database.bind (fun db => .assume fun found => ?_)
  subst same found
  refine (contract_ofExcept _ Session.Moves.none.sync).bind (fun formulas => .assume fun read => ?_)
  refine .ite (fun _ => ?_) (fun free => ?_)
  · refine (Contract.throw (Q := fun _ _ => False) ?_).bind (fun _ _ h => h.elim)
    rintro _ rfl
    exact Session.Moves.none.sync
  have renamable : Renamable s.database new formulas := ⟨read, by simpa using free⟩
  refine .ite (fun idle => ?_) (fun _ => ?_)
  · refine .pure ?_
    rintro _ rfl
    have idle : Renaming.changes old new formulas = [] := List.isEmpty_iff.1 idle
    exact ⟨formulas, renamable, by rw [idle]; rfl, .inl ⟨idle, rfl⟩⟩
  · have asked : Session.Moves s 0 (s.synced.asked (s.synced.renamePlan old new formulas)) :=
      Session.Moves.none.sync.ask _
    refine (contract_query (s.synced.renamePlan old new formulas) asked).bind
      (fun writes => .assume fun planned => ?_)
    refine (contract_write asked).bind (fun _ => .exists fun db => .assume fun written => ?_)
    refine (contract_clearCaches db).bind (fun _ => .pure ?_)
    rintro _ rfl
    obtain rfl : (s.synced.database.replaceFormulas (writes.filterMap id)).2 = db :=
      congrArg Prod.snd (Except.ok.inj written)
    exact ⟨formulas, renamable, rfl, .inr ⟨writes, planned, rfl⟩⟩

theorem moves_renameReferences (old new : String) :
    Contract (· = s) (renameReferences old new) (fun _ => Session.MovesWithin s 1)
      (Session.MovesWithin s 1) := by
  refine (contract_renameReferences old new).weaken ?_ (fun t h => ⟨0, by omega, h⟩)
  rintro _ t ⟨formulas, renamable, -, ⟨-, rfl⟩ | ⟨writes, planned, rfl⟩⟩
  · exact ⟨0, by omega, Session.Moves.none.sync⟩
  · exact ⟨1, Nat.le_refl _,
      Session.Moves.none.sync.rename (Session.synced_seenEpoch s) renamable.read planned⟩

theorem moves_evaluate (text : String) (options : ReadOptions) :
    Contract (· = s) (evaluate text options) (fun _ => Session.MovesWithin s 0)
      (Session.MovesWithin s 0) := by
  unfold evaluate
  refine contract_sync.bind (fun _ => .assume fun _ => ?_)
  refine (contract_ofExcept _ ⟨0, Nat.le_refl _, Session.Moves.none.sync⟩).bind
    (fun e => .assume fun _ => ?_)
  refine contract_engine.bind (fun engine => .assume fun _ => ?_)
  have asked {α : Type} (q : Query α) : Session.MovesWithin s 0 (s.synced.asked q) :=
    ⟨0, Nat.le_refl _, Session.Moves.none.sync.ask q⟩
  refine (contract_query _ (asked _)).weaken ?_ (fun _ h => h)
  rintro _ _ ⟨rfl, -⟩
  exact asked _

theorem delete_leaves (name : String) (s : Session) :
    (delete name s).2 = s.written (s.database.deleteFormula name).2 := rfl

theorem updateMetadata_leaves (name : String) (metadata : Json) (s : Session) :
    (updateMetadata name metadata s).2 = s ∨ ∃ json, (updateMetadata name metadata s).2 =
      { s with database := (s.database.setMetadata name json).2 } := by
  rw [updateMetadata, Action.run_bind]
  dsimp only [Action.database]
  cases s.database.formulas.row? name with
  | none => exact .inl rfl
  | some row => exact .inr ⟨row.metadata.merge metadata, rfl⟩

theorem restore_leaves (backup : Option Database) (s : Session) :
    (restore backup s).2 = s ∨
      ∃ db ∈ backup, (restore backup s).2 = s.written (s.database.restore db) := by
  cases backup with
  | none => exact .inl rfl
  | some db => exact .inr ⟨db, rfl, rfl⟩

end Engine

end SeriesLang
