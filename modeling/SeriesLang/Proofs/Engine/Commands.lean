import SeriesLang.Engine.Group
import SeriesLang.Engine.Inspect
import SeriesLang.Proofs.Database.Writes
import SeriesLang.Proofs.Engine.Sharing

/-! # Commands

What an engine can be asked to do, as data. Most commands only read: they follow the epoch, look formulas
up and note what they found out. The others write to the tables, or give the engine other operators.
-/

namespace SeriesLang

namespace Action

variable {α β : Type} {I : Session → Prop}

/-- What holds before an action holds after it, whether it succeeds or not. -/
def Keeps (I : Session → Prop) (x : Action α) : Prop :=
  ∀ s, I s → I (x s).2

theorem Keeps.bind {x : Action α} {f : α → Action β} (first : Keeps I x) (rest : ∀ a, Keeps I (f a)) :
    Keeps I (x >>= f) := by
  intro s hs
  have left := first s hs
  rw [run_bind]
  cases hx : x s with
  | mk result s' =>
      rw [hx] at left
      cases result with
      | ok a => exact rest a s' left
      | error e => exact left

theorem Keeps.pure (a : α) : Keeps I (pure a : Action α) := fun _ hs => hs

theorem Keeps.ofExcept (r : Except Error α) : Keeps I (ofExcept r) := fun _ hs => hs

theorem Keeps.engine : Keeps I engine := fun _ hs => hs

theorem Keeps.database : Keeps I database := fun _ hs => hs

/-- What stays when an engine follows the epoch or looks formulas up. -/
structure Lasting (I : Session → Prop) : Prop where
  sync {s} : I s → I s.synced
  ask {s} {α : Type} (q : Query α) : I s → I (s.asked q)

/-- What stays, too, when an engine notes which expressions look at one instant at a time. -/
structure Noting (I : Session → Prop) : Prop extends Lasting I where
  note {s} (pointwise : Cache String Bool) : I s → I { s with engine.pointwise := pointwise }

theorem Lasting.keeps_sync (h : Lasting I) : Keeps I Action.sync := fun _ hs => h.sync hs

theorem Lasting.keeps_query (h : Lasting I) (q : Query α) : Keeps I (query q) := fun _ hs => h.ask q hs

end Action

namespace Engine

open SeriesLang.Action

variable {I : Session → Prop}

theorem keeps_evaluate (h : Lasting I) (text : String) (options : ReadOptions) :
    Keeps I (evaluate text options) :=
  h.keeps_sync.bind (fun _ => (Keeps.ofExcept _).bind (fun _ => Keeps.engine.bind (fun _ =>
    h.keeps_query _)))

theorem keeps_evaluateSeries (h : Lasting I) (text : String) (options : ReadOptions) :
    Keeps I (evaluateSeries text options) :=
  (keeps_evaluate h text options).bind (fun _ => .ofExcept _)

theorem keeps_isPointwise (h : Noting I) (e : Expr) : Keeps I (isPointwise e) := by
  refine Keeps.engine.bind (fun engine => ?_)
  split
  · exact Keeps.bind (fun s hs => h.note _ hs) (fun _ => .pure _)
  · exact (h.keeps_query _).bind (fun answer => Keeps.bind (fun s hs => h.note _ hs) (fun _ => .pure _))

theorem keeps_staircase (h : Noting I) (text : String) (lag : Lag) (options : ReadOptions) :
    Keeps I (staircase text lag options) :=
  h.keeps_sync.bind (fun _ => (Keeps.ofExcept _).bind (fun e => (keeps_isPointwise h e).bind
    (fun _ => Keeps.engine.bind (fun _ => h.keeps_query _))))

theorem keeps_naiveStaircase (h : Lasting I) (text : String) (lag : Lag) (options : ReadOptions) :
    Keeps I (naiveStaircase text lag options) :=
  h.keeps_sync.bind (fun _ => (Keeps.ofExcept _).bind (fun _ => Keeps.engine.bind (fun _ =>
    h.keeps_query _)))

theorem keeps_history (h : Lasting I) (text : String) (bound : Window) (options : ReadOptions) :
    Keeps I (history text bound options) :=
  h.keeps_sync.bind (fun _ => (Keeps.ofExcept _).bind (fun _ => Keeps.engine.bind (fun _ =>
    h.keeps_query _)))

theorem keeps_expanded (h : Lasting I) (name : String) : Keeps I (expanded name) :=
  h.keeps_sync.bind (fun _ => h.keeps_query _)

theorem keeps_components (h : Lasting I) (name : String) (expand : Bool) :
    Keeps I (components name expand) := by
  have reads (text : String) : Keeps I (do
      let e ← Action.ofExcept (Expr.ofText text)
      let engine ← Action.engine
      Action.query (Dependencies.direct engine.registry engine.store e)) :=
    (Keeps.ofExcept _).bind (fun _ => Keeps.engine.bind (fun _ => h.keeps_query _))
  cases expand with
  | true =>
      refine (keeps_expanded h name).bind (fun _ => (Keeps.pure _).bind (fun text => ?_))
      cases text with
      | none => exact .pure _
      | some text => exact reads text
  | false =>
      refine (Keeps.database.bind (fun _ => .pure _)).bind (fun text => ?_)
      cases text with
      | none => exact .pure _
      | some text => exact reads text

theorem keeps_componentTable (h : Lasting I) (name : String) : Keeps I (componentTable name) :=
  h.keeps_sync.bind (fun _ => Keeps.engine.bind (fun _ => h.keeps_query _))

end Engine

/-- What an engine can be asked to do. -/
inductive Command where
  | evaluate (text : String) (options : ReadOptions)
  | evaluateSeries (text : String) (options : ReadOptions)
  | staircase (text : String) (lag : Lag) (options : ReadOptions)
  | staircaseRoute (text : String) (lag : Lag) (options : ReadOptions)
  | naiveStaircase (text : String) (lag : Lag) (options : ReadOptions)
  | history (text : String) (bound : Window) (options : ReadOptions)
  | expanded (name : String)
  | components (name : String) (expand : Bool)
  | componentTable (name : String)
  /-- Whatever else is read is read off the tables. -/
  | tables
  /-- The numbers of entries that the engine keeps. -/
  | stats
  | register (name text : String) (options : RegisterOptions)
  | rename (old new : String)
  | importAliases (arithmetic : List ArithmeticRow) (priority : List PriorityRow)
  | updateMetadata (name : String) (metadata : Json)
  | delete (name : String)
  | restore (backup : Option Database)
  | registerGroup (name text : String) (metadata : Option Json) (update : Bool)
  | registerBinding (name group : String) (binding : Json) (metadata : Option Json) (update : Bool)
  | registerOperator (o : Operator)
  | overrideOperator (o : Operator)
  /-- The series change that the engine reads. -/
  | provide (store : Store)

namespace Command

/-- The type of what a command gives. -/
def Answer : Command → Type
  | evaluate .. => Value
  | evaluateSeries .. | staircase .. | naiveStaircase .. => Series
  | staircaseRoute .. => Series × Staircase.Route
  | history .. => List (Instant × Series)
  | expanded _ => Option Expr
  | components .. => Dependencies
  | componentTable _ => Option (List ComponentRow)
  | tables => Database
  | stats => List (String × Nat)
  | register .. | registerGroup .. | registerBinding .. => Nat
  | rename .. => List String
  | importAliases .. => List (String × String)
  | updateMetadata .. | delete _ => Bool
  | restore _ | registerOperator _ | overrideOperator _ | provide _ => Unit

/-- Change the engine, unless that fails. -/
def change (f : Engine → Except Error Engine) : Action Unit :=
  fun s =>
    match f s.engine with
    | .ok engine => (.ok (), { s with engine })
    | .error e => (.error e, s)

/-- What an engine does on a command. -/
def action : (command : Command) → Action command.Answer
  | evaluate text options => Engine.evaluate text options
  | evaluateSeries text options => Engine.evaluateSeries text options
  | staircase text lag options => do return (← Engine.staircase text lag options).1
  | staircaseRoute text lag options => Engine.staircase text lag options
  | naiveStaircase text lag options => Engine.naiveStaircase text lag options
  | history text bound options => Engine.history text bound options
  | expanded name => Engine.expanded name
  | components name expand => Engine.components name expand
  | componentTable name => Engine.componentTable name
  | tables => Action.database
  | stats => do return (← Action.engine).cacheStats
  | register name text options => Engine.register name text options
  | rename old new => Engine.renameReferences old new
  | importAliases arithmetic priority => Engine.importAliases arithmetic priority
  | updateMetadata name metadata => Engine.updateMetadata name metadata
  | delete name => Engine.delete name
  | restore backup => Engine.restore backup
  | registerGroup name text metadata update => Engine.registerGroup name text metadata update
  | registerBinding name group binding metadata update =>
    Engine.registerBinding name group binding metadata update
  | registerOperator o => change (·.registerOperator o)
  | overrideOperator o => change (fun e => .ok (e.overrideOperator o))
  | provide store => change (fun e => .ok { e with store })

/-- The last epoch that a command can lead to from another one. -/
def reach (epoch : Int) : Command → Int
  | register .. | rename .. | updateMetadata .. | delete _ => epoch + 1
  | importAliases arithmetic priority =>
    epoch + (ArithmeticRow.formulas arithmetic ++ PriorityRow.formulas priority).length
  | restore backup => (Database.Write.restore backup).reach epoch
  | _ => epoch

/-- Commands that only read. -/
def Reads : Command → Prop
  | evaluate .. | evaluateSeries .. | staircase .. | staircaseRoute .. | naiveStaircase .. | history ..
  | expanded _ | components .. | componentTable _ | tables | stats => True
  | _ => False

/-- What lasts while an engine reads and notes what it found out lasts on a command that only reads. -/
theorem Reads.keeps {I : Session → Prop} {command : Command} (reads : command.Reads)
    (h : Action.Noting I) : Action.Keeps I command.action := by
  cases command with
  | evaluate text options => exact Engine.keeps_evaluate h.toLasting text options
  | evaluateSeries text options => exact Engine.keeps_evaluateSeries h.toLasting text options
  | staircase text lag options => exact (Engine.keeps_staircase h text lag options).bind (fun _ => .pure _)
  | staircaseRoute text lag options => exact Engine.keeps_staircase h text lag options
  | naiveStaircase text lag options => exact Engine.keeps_naiveStaircase h.toLasting text lag options
  | history text bound options => exact Engine.keeps_history h.toLasting text bound options
  | expanded name => exact Engine.keeps_expanded h.toLasting name
  | components name expand => exact Engine.keeps_components h.toLasting name expand
  | componentTable name => exact Engine.keeps_componentTable h.toLasting name
  | tables => exact .database
  | stats => exact Action.Keeps.engine.bind (fun _ => .pure _)
  | _ => exact reads.elim

end Command

namespace Session

variable {s t : Session}

/-- An engine that follows the epoch of later tables has followed that of the earlier ones, which have the
    same formulas. -/
theorem Current.catalog (h : s.Current) {db : Database} (follows : s.database.Follows db)
    (same : s.engine.seenEpoch = db.epoch) :
    s.engine.seenEpoch = s.database.epoch ∧ db.catalog = s.database.catalog := by
  have seen := h.seen
  have later := follows.le
  refine ⟨by omega, funext fun name => Database.catalog_congr ?_⟩
  rw [follows.formulas (by omega)]

/-- A session keeps up with the tables, whoever has written to them. -/
theorem Current.behind (h : s.Current) {db : Database} (follows : s.database.Follows db) :
    Current { s with database := db } := by
  refine ⟨Int.le_trans h.seen follows.le, fun same => ?_⟩
  obtain ⟨before, catalog⟩ := h.catalog follows same
  show FormulaCache.Coherent db.catalog s.engine.trees
  rw [catalog]
  exact h.trusted before

/-- What can become of a session: the tables follow the ones from before, and the engine is still current. -/
structure Advances (s t : Session) : Prop where
  follows : s.database.Follows t.database
  current : s.Current → t.Current

theorem Advances.refl (s : Session) : s.Advances s :=
  ⟨.refl _, id⟩

theorem noting_advances (s : Session) :
    Action.Noting (fun t => t.database = s.database ∧ (s.Current → t.Current)) where
  sync h := ⟨h.1, fun before => ⟨Int.le_of_eq (synced_seenEpoch _), fun _ => (h.2 before).trusted.synced⟩⟩
  ask q h := ⟨h.1, fun before => ⟨(h.2 before).seen, fun same => ((h.2 before).trusted same).asked q⟩⟩
  note _ h := ⟨h.1, fun before => ⟨(h.2 before).seen, (h.2 before).trusted⟩⟩

theorem MovesWithin.advances {most : Nat} (h : MovesWithin s most t)
    (room : s.database.epoch + most < Database.epochBound) : s.Advances t := by
  obtain ⟨n, hn, moves⟩ := h
  have epoch := moves.epoch (by omega)
  refine ⟨?_, fun before => moves.current before (by omega)⟩
  rcases Nat.eq_zero_or_pos n with idle | writes
  · rw [moves.database idle]
    exact .refl _
  · exact .inr (by omega)

theorem advances_behind (s : Session) {db : Database} (follows : s.database.Follows db) :
    s.Advances { s with database := db } :=
  ⟨follows, fun before => before.behind follows⟩

theorem advances_written (s : Session) {db : Database} (follows : s.database.Follows db) :
    s.Advances (s.written db) :=
  ⟨follows, fun before => before.written follows.le⟩

end Session

namespace Action

variable {α : Type}

theorem write_leaves (f : Database → Except Error (α × Database)) (s : Session) :
    (write f s).2 = { s with database := s.database.orKept ((f s.database).map Prod.snd) } := by
  rw [write]
  cases f s.database <;> rfl

end Action

theorem Engine.registerGroup_leaves (name text : String) (metadata : Option Json) (update : Bool)
    (s : Session) : (registerGroup name text metadata update s).2 = s ∨
      ∃ row, (registerGroup name text metadata update s).2 =
        { s with database := Database.Write.run s.database (.group name row update) } := by
  rw [registerGroup, Action.run_bind]
  cases Expr.ofText text with
  | error e => exact .inl rfl
  | ok e => exact .inr ⟨_, Action.write_leaves _ s⟩

namespace Command

open SeriesLang.Action

variable {s : Session}

/-- Reading leaves the tables as they are, and an engine current that was so. -/
theorem Reads.advances {command : Command} (reads : command.Reads) (s : Session) :
    (command.action s).2.database = s.database ∧ s.Advances (command.action s).2 := by
  obtain ⟨same, current⟩ := reads.keeps s.noting_advances s ⟨rfl, id⟩
  exact ⟨same, same ▸ .refl _, current⟩

theorem advances_change {f : Engine → Except Error Engine}
    (current : ∀ e, f s.engine = .ok e → s.Current → Session.Current { s with engine := e }) :
    s.Advances (change f s).2 := by
  rw [change]
  cases changed : f s.engine with
  | ok engine => exact ⟨.refl _, current engine changed⟩
  | error e => exact .refl s

/-- As long as epochs do not run out, a command keeps the epoch together with the formulas or begins a
    later one, and it leaves an engine current that was so. -/
theorem advances (command : Command) (s : Session)
    (room : command.reach s.database.epoch < Database.epochBound) : s.Advances (command.action s).2 := by
  have cleared : ∀ (r : Registry), s.Current →
      Session.Current { s with engine := { s.engine with registry := r }.clearCaches } :=
    fun r before => ⟨before.seen, fun _ => .clear _ _⟩
  by_cases reads : command.Reads
  · exact (reads.advances s).2
  -- A command that registers formulas goes by the moves it makes, any other one by the write it leaves.
  cases command with
  | register name text options =>
      exact Session.MovesWithin.advances ((Engine.moves_register name text options).leaves rfl) room
  | rename old new =>
      exact Session.MovesWithin.advances ((Engine.moves_renameReferences old new).leaves rfl) room
  | importAliases arithmetic priority =>
      exact Session.MovesWithin.advances ((Engine.moves_registerAll _).leaves rfl) room
  | updateMetadata name metadata =>
      rcases Engine.updateMetadata_leaves name metadata s with same | ⟨json, written⟩
      · rw [action, same]
        exact .refl s
      · rw [action, written]
        exact s.advances_behind (Database.Write.follows (.metadata name json) room)
  | delete name => exact s.advances_written (Database.Write.follows (.delete name) room)
  | restore backup =>
      cases backup with
      | none => exact .refl s
      | some backup => exact s.advances_written (Database.Write.follows (.restore (some backup)) room)
  | registerGroup name text metadata update =>
      rcases Engine.registerGroup_leaves name text metadata update s with same | ⟨row, written⟩
      · rw [action, same]
        exact .refl s
      · rw [action, written]
        exact s.advances_behind (Database.Write.follows (.group name row update) room)
  | registerBinding name group binding metadata update =>
      rw [action, Engine.registerBinding, write_leaves]
      exact s.advances_behind (Database.Write.follows (.binding name _ update) room)
  | registerOperator o =>
      refine advances_change (fun e registered => ?_)
      obtain ⟨r, -, registered⟩ := ok_of_bind registered
      cases registered
      exact cleared r
  | overrideOperator o =>
      refine advances_change (fun e overridden => ?_)
      cases overridden
      exact cleared _
  | provide store =>
      refine advances_change (fun e provided => ?_)
      cases provided
      exact fun before => ⟨before.seen, before.trusted⟩
  | _ => exact absurd trivial reads

end Command

end SeriesLang
