import SeriesLang.Proofs.Engine.Twins
import SeriesLang.Proofs.Expr.RoundTrip

/-! # Caches do not show

Whatever happened on a database that engines share, an engine answers as if it kept nothing. What it keeps of
expressions it finds by their hashes, so no two expressions that it was asked for may have the same one.
-/

namespace SeriesLang

namespace Expr

/-- What a request asks for is read from its canonical text again. -/
theorem parse_canonical_of_request {text : String} {e : Expr} (h : ofRequest text = .ok e) :
    parse e.canonical = .ok e := by
  refine parse_canonical_of_readable ?_
  simp only [ofRequest] at h
  split at h
  · exact readable_parse (ofText_eq_ok_iff.1 h)
  · cases h
    exact readable_series text

end Expr

/-- The expressions of which a command lets the engine keep whether they look at one instant at a time. -/
def Command.asked : Command → List Expr
  | staircase text .. | staircaseRoute text .. => (Expr.ofRequest text).toOption.toList
  | _ => []

def Event.asked : Event → List Expr
  | command _ next => next.asked
  | _ => []

/-- Expressions with the same hash have the same canonical text. -/
def NoCollision (known : List Expr) : Prop :=
  ∀ a ∈ known, ∀ b ∈ known, a.contentHash = b.contentHash → a.canonical = b.canonical

theorem Command.request_of_asked {command : Command} {e : Expr} (h : e ∈ command.asked) :
    ∃ text, Expr.ofRequest text = .ok e := by
  unfold asked at h
  split at h
  · exact ⟨_, toOption_eq_some_iff.1 (Option.mem_toList.1 h)⟩
  · exact ⟨_, toOption_eq_some_iff.1 (Option.mem_toList.1 h)⟩
  · cases h

theorem Event.request_of_asked {events : List Event} {e : Expr} (h : e ∈ events.flatMap Event.asked) :
    ∃ text, Expr.ofRequest text = .ok e := by
  obtain ⟨event, -, he⟩ := List.mem_flatMap.1 h
  cases event with
  | command i next => exact Command.request_of_asked he
  | join => cases he
  | write => cases he

/-- Requests without a collision are told apart by their hashes. -/
theorem NoCollision.distinct {known : List Expr} (h : NoCollision known)
    (requests : ∀ e ∈ known, ∃ text, Expr.ofRequest text = .ok e) :
    ∀ a ∈ known, ∀ b ∈ known, a.contentHash = b.contentHash → a = b := by
  intro a ha b hb hash
  obtain ⟨text, read⟩ := requests a ha
  obtain ⟨other, read'⟩ := requests b hb
  have again := Expr.parse_canonical_of_request read
  rw [h a ha b hb hash, Expr.parse_canonical_of_request read'] at again
  exact (Except.ok.inj again).symm

namespace Command

open SeriesLang.Action
open Session (Even)

/-- Commands whose answers do not show what the engine keeps. The numbers of entries do, and so do the
    components of a stored text, for which no epoch is followed. -/
def Transparent : Command → Prop
  | components _ expand => expand = true
  | stats => False
  | _ => True

/-- Commands that write past what the engine keeps. -/
def Plain : Command → Prop
  | updateMetadata .. | registerGroup .. | registerBinding .. => True
  | _ => False

variable {known : List Expr}

theorem paired_operators (f : Registry → Except Error Registry) :
    Paired (Even known) (change (fun e => do return { e with registry := ← f e.registry }.clearCaches))
      (change (fun e => do return { e with registry := ← f e.registry }.clearCaches)) (Even known) := by
  intro s t h
  rw [change, change, h.twins.registry]
  cases f s.engine.registry with
  | error e => exact ⟨rfl, h⟩
  | ok r =>
      exact ⟨rfl, ⟨h.twins.database, rfl, h.twins.store, h.twins.config, h.twins.seenEpoch⟩,
        .cleared _ _, .cleared _ _⟩

theorem paired (command : Command) (transparent : command.Transparent) (cleared : ¬ command.Plain)
    (asked : ∀ e ∈ command.asked, e ∈ known ∧ ∀ a ∈ known, a.contentHash = e.contentHash → a = e) :
    Paired (Even known) command.action command.action (Even known) := by
  have staircase : ∀ text lag options, (∀ e, Expr.ofRequest text = .ok e → e ∈ command.asked) →
      Paired (Even known) (Engine.staircase text lag options) (Engine.staircase text lag options)
        (Even known) :=
    fun text lag options mem => Engine.paired_staircase text lag options (fun e read => asked e (mem e read))
  cases command with
  | evaluate text options => exact Engine.paired_evaluate text options
  | evaluateSeries text options => exact Engine.paired_evaluateSeries text options
  | staircase text lag options =>
      exact (staircase text lag options (fun e read => by simp [Command.asked, read, Except.toOption])).bind
        (fun _ => .pure _) id
  | staircaseRoute text lag options =>
      exact staircase text lag options (fun e read => by simp [Command.asked, read, Except.toOption])
  | naiveStaircase text lag options => exact Engine.paired_naiveStaircase text lag options
  | history text bound options => exact Engine.paired_history text bound options
  | expanded name => exact Engine.paired_expanded name
  | components name expand =>
      cases transparent
      exact Engine.paired_components name
  | componentTable name => exact Engine.paired_componentTable name
  | tables => exact Paired.database (fun h => h.twins.database)
  | stats => exact transparent.elim
  | register name text options => exact Engine.paired_register name text options
  | rename old new => exact Engine.paired_renameReferences old new
  | importAliases arithmetic priority => exact Engine.paired_registerAll _
  | updateMetadata => exact (cleared trivial).elim
  | delete name => exact paired_write _ id
  | restore backup =>
      cases backup with
      | none => exact Paired.throw id
      | some backup => exact paired_write (fun db => .ok ((), db.restore backup)) id
  | registerGroup => exact (cleared trivial).elim
  | registerBinding => exact (cleared trivial).elim
  | registerOperator o => exact paired_operators (·.register o)
  | overrideOperator o => exact paired_operators (fun r => .ok (r.override o))
  | provide store =>
      intro s t h
      exact ⟨rfl, ⟨h.twins.database, h.twins.registry, rfl, h.twins.config, h.twins.seenEpoch⟩,
        ⟨h.left.trusted, h.left.judged⟩, h.right.trusted, h.right.judged⟩

theorem paired_plain (command : Command) (plain : command.Plain) :
    Paired (Even known) command.action command.action (fun s t => t.database = s.database) := by
  have written : ∀ {α : Type} (f : Database → Except Error (α × Database)),
      Paired (Even known) (write f) (write f) (fun s t => t.database = s.database) := by
    intro α f s t h
    rw [write, write, h.twins.database]
    cases f s.database with
    | error e => exact ⟨rfl, h.twins.database⟩
    | ok p => exact ⟨rfl, rfl⟩
  cases command with
  | updateMetadata name metadata =>
      refine (Paired.database (fun h => h.twins.database)).bind (fun db => ?_) (fun h => h.twins.database)
      cases db.formulas.row? name with
      | none => exact (Paired.pure false).weaken (fun h => h.twins.database)
      | some row => exact written _
  | registerGroup name text metadata update =>
      exact Paired.read (fun _ _ => written _) (fun h => h.twins.database)
  | registerBinding name group binding metadata update => exact written _
  | _ => exact plain.elim

/-- Twins that keep nothing that is out of date answer the same and write the same. -/
theorem paired_answers (command : Command) (transparent : command.Transparent)
    (asked : ∀ e ∈ command.asked, e ∈ known ∧ ∀ a ∈ known, a.contentHash = e.contentHash → a = e) :
    Paired (Even known) command.action command.action (fun s t => t.database = s.database) := by
  by_cases plain : command.Plain
  · exact paired_plain command plain
  · exact (paired command transparent plain asked).weaken (fun h => h.twins.database)

theorem engine_of_plain {command : Command} (plain : command.Plain) (s : Session) :
    (command.action s).2.engine = s.engine := by
  cases command with
  | updateMetadata name metadata =>
      rcases Engine.updateMetadata_leaves name metadata s with same | ⟨json, written⟩
      · rw [action, same]
      · rw [action, written]
  | registerGroup name text metadata update =>
      rcases Engine.registerGroup_leaves name text metadata update s with same | ⟨row, written⟩
      · rw [action, same]
      · rw [action, written]
  | registerBinding name group binding metadata update =>
      rw [action, Engine.registerBinding, write_leaves]
  | _ => exact plain.elim

/-- After a command an engine still keeps nothing that is out of date. -/
theorem kept {command : Command} {s : Session} (h : s.Kept known) (current : s.Current)
    (room : command.reach s.database.epoch < Database.epochBound)
    (asked : ∀ e ∈ command.asked, e ∈ known ∧ ∀ a ∈ known, a.contentHash = e.contentHash → a = e) :
    (command.action s).2.Kept known := by
  by_cases plain : command.Plain
  · have behind := h.behind current (command.advances s room).follows
    rwa [← engine_of_plain plain s] at behind
  by_cases transparent : command.Transparent
  · exact ((command.paired transparent plain asked) s s ⟨.refl s, h, h⟩).2.left
  · cases command with
    | components name expand =>
        exact Engine.keeps_components ⟨fun h => h.synced, fun q h => h.asked q⟩ name expand s h
    | stats => exact h
    | _ => exact absurd trivial transparent

end Command

namespace Shared

variable {db : Database} {backups : List (String × Database)} {c : Shared} {events : List Event}
  {engine : Engine}

/-- As long as expressions are told apart by their hashes, no engine keeps what is out of date. -/
theorem Run.kept (h : Run ⟨[], db, backups⟩ events c)
    (distinct : ∀ a ∈ events.flatMap Event.asked, ∀ b ∈ events.flatMap Event.asked,
      a.contentHash = b.contentHash → a = b) :
    ∀ e ∈ c.engines, Session.Kept (events.flatMap Event.asked) ⟨e, c.database⟩ := by
  induction h with
  | none => exact nofun
  | @step events c h event room ih =>
      rw [List.flatMap_append] at distinct ⊢
      have current := h.current (.empty db backups)
      have before : ∀ e ∈ c.engines, Session.Kept (events.flatMap Event.asked ++ [event].flatMap Event.asked)
          ⟨e, c.database⟩ := by
        intro e he
        refine (ih (fun a ha b hb => ?_) e he).mono (List.subset_append_left _ _)
        exact distinct a (List.mem_append_left _ ha) b (List.mem_append_left _ hb)
      intro e he
      rcases engine_happen he with old | ⟨store, config, rfl⟩ | ⟨i, command, engine, rfl, mem, left⟩
      · exact (before e old).behind (current e old) (follows_happen c event room)
      · exact ⟨fun _ => FormulaCache.Coherent.create _ _, fun _ => nofun⟩
      · rw [← left]
        refine Command.kept (before engine mem) (current engine mem) room (fun a ha => ?_)
        have own : a ∈ events.flatMap Event.asked ++ [Event.command i command].flatMap Event.asked := by
          rw [List.flatMap_singleton]
          exact List.mem_append_right _ ha
        exact ⟨own, fun b hb => distinct b hb a own⟩

/-- Whatever happened before, the answer to a command is that of the same engine with empty caches, and it
    writes the same. -/
theorem caches_transparent (run : Run ⟨[], db, backups⟩ events c) (mem : engine ∈ c.engines)
    {command : Command} (transparent : command.Transparent)
    (distinct : NoCollision (events.flatMap Event.asked ++ command.asked)) :
    (command.action ⟨engine, c.database⟩).1 = (command.action ⟨engine.clearCaches, c.database⟩).1 ∧
      (command.action ⟨engine.clearCaches, c.database⟩).2.database =
        (command.action ⟨engine, c.database⟩).2.database := by
  have apart := distinct.distinct (fun e he => by
    rcases List.mem_append.1 he with he | he
    · exact Event.request_of_asked he
    · exact Command.request_of_asked he)
  have kept := run.kept (fun a ha b hb =>
    apart a (List.mem_append_left _ ha) b (List.mem_append_left _ hb)) engine mem
  refine command.paired_answers transparent (fun e he => ⟨List.mem_append_right _ he, fun a ha => ?_⟩) _ _
    ⟨⟨rfl, rfl, rfl, rfl, rfl⟩, kept.mono (List.subset_append_left _ _), .cleared _ _⟩
  exact apart a ha e (List.mem_append_right _ he)

/-- The staircase of a formula. -/
def stairs : Command :=
  .staircaseRoute "f" (Lag.ofSeconds 5) { context := { now := { seconds := 60, nanos := 0 } } }

/-- Two engines over one stored series. The second one has kept that a formula looks at one instant at a
    time, and then the first one registers it anew, so that it does so no more. -/
def outdated : List Event :=
  let single := ({} : Store).insert "s" { seconds := 10, nanos := 0 } [({ seconds := 20, nanos := 0 }, 1)]
  [.join single {}, .join single {}, .command 1 (.register "f" "(series \"s\")" {}),
    .command 1 stairs, .command 0 (.register "f" "(resample (series \"s\") \"D\")" { update := true })]

theorem caches_transparent_outdated : ∃ (c : Shared) (engine : Engine),
    Run ⟨[], .create, []⟩ outdated c ∧ engine ∈ c.engines ∧
      engine.pointwise.entries.map Prod.snd = [true] ∧
      (stairs.action ⟨engine, c.database⟩).1.toOption.map Prod.snd = some Staircase.Route.naive ∧
      (stairs.action ⟨engine, c.database⟩).1 = (stairs.action ⟨engine.clearCaches, c.database⟩).1 := by
  let c := outdated.foldl happen ⟨[], .create, []⟩
  have run : Run ⟨[], .create, []⟩ outdated c :=
    ((((Run.none.step _ (by decide +kernel)).step _ (by decide +kernel)).step _ (by decide +kernel)).step _
      (by decide +kernel)).step _ (by decide +kernel)
  have second : c.engines[1]?.any (fun engine => engine.pointwise.entries.map Prod.snd = [true] &&
      (stairs.action ⟨engine, c.database⟩).1.toOption.map Prod.snd = some Staircase.Route.naive) = true := by
    decide +kernel
  obtain ⟨engine, here, told⟩ := (Option.any_eq_true _ _).1 second
  obtain ⟨kept, route⟩ := (Bool.and_eq_true _ _).mp told
  have known : outdated.flatMap Event.asked ++ stairs.asked = [.series "f", .series "f"] := by
    decide +kernel
  have distinct : NoCollision (outdated.flatMap Event.asked ++ stairs.asked) := by
    rw [known]
    simp [NoCollision]
  have mem := List.mem_of_getElem? here
  have transparent : stairs.Transparent := trivial
  exact ⟨c, engine, run, mem, of_decide_eq_true kept, of_decide_eq_true route,
    (caches_transparent run mem transparent distinct).1⟩

end Shared

end SeriesLang
