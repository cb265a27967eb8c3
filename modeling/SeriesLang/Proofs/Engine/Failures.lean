import SeriesLang.Proofs.Engine.Attempts
import SeriesLang.Proofs.Engine.Outcome
import SeriesLang.Proofs.Engine.Traffic

/-! # Calls that fail

A call that puts something into the tables and fails leaves them as they were, with the ids that they are
about to give. So it does not show in what is done after it.
-/

namespace SeriesLang

/-- What can be put into the tables. -/
inductive Submission where
  | register (name text : String) (options : RegisterOptions)
  | rename (old new : String)
  | updateMetadata (name : String) (metadata : Json)
  | registerGroup (name text : String) (metadata : Option Json) (update : Bool)
  | renameGroup (old new : String)
  | registerBinding (name group : String) (binding : Json) (metadata : Option Json) (update : Bool)

namespace Database

variable {db db' : Database} {name : String} {update : Bool} {id : Nat}

theorem writeFormula_id {w : FormulaWrite} {refreshed : List (String × List String)}
    {resolvedAt : Option Int} (h : db.writeFormula w update refreshed resolvedAt = .ok (id, db')) :
    id = db.formulas.idFor w.name := by
  obtain ⟨_, -, h⟩ := ok_of_bind h
  obtain ⟨-, h⟩ := ok_of_else h
  exact (congrArg Prod.fst (Except.ok.inj h)).symm

theorem writeGroup_id {row : GroupRow} (h : db.writeGroup name row update = .ok (id, db')) :
    id = db.groups.idFor name := by
  obtain ⟨-, h⟩ := ok_of_else h
  exact (congrArg Prod.fst (Except.ok.inj h)).symm

theorem writeBinding_id {row : BindingRow} (h : db.writeBinding name row update = .ok (id, db')) :
    id = db.bindings.idFor name := by
  obtain ⟨-, h⟩ := ok_of_else h
  obtain ⟨-, h⟩ := ok_of_else h
  exact (congrArg Prod.fst (Except.ok.inj h)).symm

end Database

namespace Engine

open SeriesLang.Action

variable {s : Session}

/-- A registration gives the id that the tables have for the name. -/
theorem contract_register_id (name text : String) (options : RegisterOptions) :
    Contract (· = s) (register name text options) (fun id _ => id = s.database.formulas.idFor name)
      (fun _ => True) := by
  unfold register
  refine (contract_ofExcept _ trivial).bind (fun e => .assume fun _ => ?_)
  refine contract_engine.bind (fun engine => .assume fun _ => ?_)
  refine (contract_ofExcept _ trivial).bind (fun _ => .assume fun _ => ?_)
  refine contract_sync.bind (fun resolvedAt => .assume fun _ => ?_)
  refine contract_engine.bind (fun engine => .assume fun _ => ?_)
  refine contract_database.bind (fun db => .assume fun _ => ?_)
  refine .ite (fun _ => ?_) (fun _ => ?_)
  · exact (Contract.throw (Q := fun _ _ => False) (fun _ _ => trivial)).bind (fun _ _ h => h.elim)
  · refine (contract_query _ trivial).bind (fun (w, refreshed) => .assume fun planned => ?_)
    refine (contract_write trivial).bind (fun id => .exists fun db => .assume fun written => ?_)
    refine (contract_clearCaches db).bind (fun _ => .pure fun _ _ => ?_)
    obtain rfl : w.name = name := (((Registration.ends_plan _ _ _).runCached _ _).1 _ planned).name
    exact Database.writeFormula_id written

theorem contract_registerGroup_id (name text : String) (metadata : Option Json) (update : Bool) :
    Contract (· = s) (registerGroup name text metadata update)
      (fun id _ => id = s.database.groups.idFor name) (fun _ => True) := by
  refine (contract_ofExcept _ trivial).bind (fun _ => .assume fun _ => ?_)
  refine (contract_write (E := fun _ => True) trivial).weaken ?_ (fun _ _ => trivial)
  rintro id _ ⟨db, -, written⟩
  exact Database.writeGroup_id written

theorem contract_registerBinding_id (name group : String) (binding : Json) (metadata : Option Json)
    (update : Bool) : Contract (· = s) (registerBinding name group binding metadata update)
      (fun id _ => id = s.database.bindings.idFor name) (fun _ => True) := by
  refine (contract_write (E := fun _ => True) trivial).weaken ?_ (fun _ _ => trivial)
  rintro id _ ⟨db, -, written⟩
  exact Database.writeBinding_id written

end Engine

namespace Submission

/-- The type of what a call gives. -/
def Answer : Submission → Type
  | register .. | registerGroup .. | registerBinding .. => Nat
  | rename .. => List String
  | updateMetadata .. => Bool
  | renameGroup .. => Unit

/-- What an engine does on a call. -/
def action : (call : Submission) → Action call.Answer
  | register name text options => Engine.register name text options
  | rename old new => Engine.renameReferences old new
  | updateMetadata name metadata => Engine.updateMetadata name metadata
  | registerGroup name text metadata update => Engine.registerGroup name text metadata update
  | renameGroup old new => Action.write (fun db => (db.renameGroup old new).map (fun db' => ((), db')))
  | registerBinding name group binding metadata update =>
    Engine.registerBinding name group binding metadata update

/-- The id in an answer, if the call gives one. -/
def id? : (call : Submission) → call.Answer → Option Nat
  | register .., id => some (id : Nat)
  | registerGroup .., id => some (id : Nat)
  | registerBinding .., id => some (id : Nat)
  | rename .., _ => none
  | updateMetadata .., _ => none
  | renameGroup .., _ => none

/-- The id that the tables have for a call, if it gives one. -/
def idIn (db : Database) : Submission → Option Nat
  | register name .. => some (db.formulas.idFor name)
  | registerGroup name .. => some (db.groups.idFor name)
  | registerBinding name .. => some (db.bindings.idFor name)
  | rename .. | updateMetadata .. | renameGroup .. => none

/-- What a call comes to. -/
def outcome (r : Registry) (store : Store) (db : Database) :
    (call : Submission) → Except Error (call.Answer × Database)
  | register name text options => Registration.outcome r store db name text options
  | rename old new => Renaming.outcome r store db old new
  | updateMetadata name metadata =>
    match db.formulas.row? name with
    | none => .ok (false, db)
    | some row => .ok (db.setMetadata name (row.metadata.merge metadata))
  | registerGroup name text metadata update => do
    let _ ← Expr.ofText text
    db.writeGroup name ⟨text, metadata.getD (.obj [])⟩ update
  | renameGroup old new => (db.renameGroup old new).map (fun db' => ((), db'))
  | registerBinding name group binding metadata update =>
    db.writeBinding name ⟨group, binding, metadata.getD (.obj [])⟩ update

open SeriesLang.Action

variable {s t : Session} {error : Error}

theorem comes (h : s.Trusted) (call : Submission) :
    Comes call.action s (call.outcome s.engine.registry s.engine.store s.database) := by
  cases call with
  | register name text options => exact Engine.register_comes h name text options
  | rename old new => exact Engine.renameReferences_comes h old new
  | updateMetadata name metadata =>
      refine Comes.database ?_
      simp only [outcome]
      cases s.database.formulas.row? name with
      | none => exact .pure false
      | some row => exact .write _
  | registerGroup name text metadata update => exact .read (fun _ _ => .write _)
  | renameGroup old new => exact .write _
  | registerBinding name group binding metadata update => exact .write _

/-- A call that fails has followed the epoch and asked at most. -/
theorem moves_of_fails {call : Submission} (failed : call.action s = (.error error, t)) :
    Session.Moves s 0 t := by
  cases call with
  | register name text options =>
      exact (Engine.contract_register name text options s rfl).2 error t failed
  | rename old new => exact (Engine.contract_renameReferences old new s rfl).2 error t failed
  | updateMetadata name metadata =>
      have answers := congrArg Prod.fst failed
      simp only [action, Engine.updateMetadata, run_bind, Action.database] at answers
      cases found : s.database.formulas.row? name <;> rw [found] at answers <;> cases answers
  | registerGroup name text metadata update =>
      rcases fails_of_bind failed with unread | ⟨e, u, read, h⟩
      · obtain ⟨-, rfl⟩ := Prod.mk.inj unread
        exact .none
      · obtain ⟨-, rfl⟩ := Prod.mk.inj read
        obtain ⟨-, rfl⟩ := write_fails h
        exact .none
  | renameGroup old new =>
      have unwritten : Action.write (fun db => (db.renameGroup old new).map (fun db' => ((), db'))) s =
          (.error error, t) := failed
      obtain ⟨-, rfl⟩ := write_fails unwritten
      exact .none
  | registerBinding name group binding metadata update =>
      have unwritten : Action.write (·.writeBinding name ⟨group, binding, metadata.getD (.obj [])⟩ update)
          s = (.error error, t) := failed
      obtain ⟨-, rfl⟩ := write_fails unwritten
      exact .none

/-- The id that a call gives is the one that the tables have for it, whatever the engine keeps. -/
theorem id?_of_succeeds {call : Submission} {a : call.Answer} (done : call.action s = (.ok a, t)) :
    call.id? a = call.idIn s.database := by
  cases call with
  | register name text options =>
      exact congrArg some ((Engine.contract_register_id name text options s rfl).1 a t done)
  | rename old new => rfl
  | updateMetadata name metadata => rfl
  | registerGroup name text metadata update =>
      exact congrArg some ((Engine.contract_registerGroup_id name text metadata update s rfl).1 a t done)
  | renameGroup old new => rfl
  | registerBinding name group binding metadata update =>
      exact congrArg some
        ((Engine.contract_registerBinding_id name group binding metadata update s rfl).1 a t done)

/-- Ids depend on the tables alone. -/
theorem id?_congr {call : Submission} {a a' : call.Answer} {s s' t t' : Session}
    (same : s'.database = s.database) (done : call.action s = (.ok a, t))
    (done' : call.action s' = (.ok a', t')) : call.id? a' = call.id? a := by
  rw [id?_of_succeeds done, id?_of_succeeds done', same]

/-- What a call comes to depends on the operators, the series and the tables alone. -/
theorem action_congr {s s' : Session} (h : s.Trusted) (h' : s'.Trusted)
    (database : s'.database = s.database) (registry : s'.engine.registry = s.engine.registry)
    (store : s'.engine.store = s.engine.store) (call : Submission) :
    (call.action s').1 = (call.action s).1 ∧
      (call.action s').2.database = (call.action s).2.database := by
  obtain ⟨answers, leaves⟩ := comes h call
  obtain ⟨answers', leaves'⟩ := comes h' call
  rw [answers, answers', leaves, leaves', database, registry, store]
  exact ⟨rfl, rfl⟩

/-- A call that fails leaves all tables, with the epoch and the ids that are used up, as they were. The next
    call that succeeds gives the id that it would have given without the failure, and in every state that
    engines on a database come to it would have succeeded as well, or failed in the same way. A registration
    that gives up because others write leaves the database as the others have made it. -/
theorem failed_leaves (s : Session) :
    (∀ (call : Submission) error t, call.action s = (.error error, t) →
      t.database = s.database ∧
      (∀ (next : Submission) a a' u u', next.action s = (.ok a, u) → next.action t = (.ok a', u') →
        next.id? a' = next.id? a) ∧
      ∀ c events db backups, Shared.Run ⟨[], db, backups⟩ events c → s.engine ∈ c.engines →
        s.database = c.database → ∀ next : Submission, (next.action t).1 = (next.action s).1 ∧
          (next.action t).2.database = (next.action s).2.database) ∧
    ∀ others name text options error t,
      Engine.registerAmid others name text options s = (.error error, t) →
      (∃ count, t.database = others.during 0 count s.database) ∧
      ∀ (next : Submission) a a' u u', next.action { s with database := t.database } = (.ok a, u) →
        next.action t = (.ok a', u') → next.id? a' = next.id? a := by
  refine ⟨fun call error t failed => ?_, fun others name text options error t failed => ?_⟩
  · have moves := moves_of_fails failed
    have same := moves.database rfl
    refine ⟨same, fun next a a' u u' done done' => id?_congr same done done', ?_⟩
    intro c events db backups run mem found next
    have trusted : s.Trusted := by
      have current := run.current (.empty db backups) s.engine mem
      rw [← found] at current
      exact current.trusted
    exact action_congr trusted (moves.trusted trusted) same moves.registry moves.store next
  · have same : t.database = ({ s with database := t.database } : Session).database := rfl
    exact ⟨Engine.registerAmid_fails failed,
      fun next a a' u u' done done' => id?_congr same done done'⟩

/-- A formula that would lead back to itself is turned away, and the next one gets the id that it would have
    got. Where others write at every moment, a registration gives up after three attempts. -/
theorem failed_leaves_cyclic : ∃ (s t u : Session),
    s.database.formulas.names = ["base", "sum"] ∧ s.database.epoch = 3 ∧
    (register "base" "(series \"sum\")" { rejectUnknown := false, update := true }).action s =
      (.error (.cyclicFormula "base"), t) ∧
    t.database = s.database ∧ (Engine.register "more" "1" {} s).1 = .ok 3 ∧
    ((register "more" "1" {}).action t).1 = ((register "more" "1" {}).action s).1 ∧
    Engine.registerAmid (fun _ db => db.bumpEpoch) "more" "1" {} s = (.error (.concurrentWrite 7 9), u) ∧
    u.database.epoch = 9 ∧
    ∃ count, u.database = Others.during (fun _ db => db.bumpEpoch) 0 count s.database := by
  obtain ⟨events, c, engine, run, mem, names, epoch, cyclic, done, moved, left⟩ :
      ∃ (events : List Event) (c : Shared) (engine : Engine), Shared.Run ⟨[], .create, []⟩ events c ∧
      engine ∈ c.engines ∧ c.database.formulas.names = ["base", "sum"] ∧ c.database.epoch = 3 ∧
      (Engine.register "base" "(series \"sum\")" { rejectUnknown := false, update := true }
        ⟨engine, c.database⟩).1 = .error (.cyclicFormula "base") ∧
      (Engine.register "more" "1" {} ⟨engine, c.database⟩).1 = .ok 3 ∧
      (Engine.registerAmid (fun _ db => db.bumpEpoch) "more" "1" {} ⟨engine, c.database⟩).1 =
        .error (.concurrentWrite 7 9) ∧
      (Engine.registerAmid (fun _ db => db.bumpEpoch) "more" "1" {} ⟨engine, c.database⟩).2.database.epoch =
        9 := by
    have run := ((Shared.Run.none (c := ⟨[], .create, []⟩).step (.join {} {}) (by decide +kernel)).step
      (.command 0 (.register "base" "(series \"early\")" { rejectUnknown := false }))
        (by decide +kernel)).step
      (.command 0 (.register "sum" "(+ 1 (series \"base\"))" { rejectUnknown := false }))
        (by decide +kernel)
    exact ⟨_, _, _, run, List.head_mem (by decide +kernel), by decide +kernel, by decide +kernel,
      by decide +kernel, by decide +kernel, by decide +kernel, by decide +kernel⟩
  have turned : (register "base" "(series \"sum\")" { rejectUnknown := false, update := true }).action
      ⟨engine, c.database⟩ = (.error (.cyclicFormula "base"), _) := run_of_fst cyclic
  have amid := run_of_fst moved
  obtain ⟨calls, others⟩ := failed_leaves ⟨engine, c.database⟩
  obtain ⟨same, -, next⟩ := calls _ _ _ turned
  exact ⟨⟨engine, c.database⟩, _, _, names, epoch, turned, same, done,
    (next c events .create [] run mem rfl (register "more" "1" {})).1, amid, left,
    (others _ _ _ _ _ _ amid).1⟩

end Submission

end SeriesLang
