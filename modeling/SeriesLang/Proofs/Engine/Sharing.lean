import SeriesLang.Proofs.Database.Acyclic
import SeriesLang.Proofs.Database.Epoch
import SeriesLang.Proofs.Engine.Runs

/-! # Engines that share a database

Each engine keeps formulas that it has read, while the others write. An engine whose epoch is that of the
database has seen all writes; any other one gives up what it keeps before it plans a write. So no write is
planned from formulas that are out of date, and formulas never lead back to themselves.
-/

namespace SeriesLang

namespace Session

variable {s t : Session} {n : Nat}

/-- A session whose engine has seen no epoch that is still to come, behind a cache that can be trusted. -/
structure Current (s : Session) : Prop where
  seen : s.engine.seenEpoch ≤ s.database.epoch
  trusted : s.Trusted

/-- Every write begins a new epoch. -/
theorem Moves.epoch (h : Moves s n t) (room : s.database.epoch + n < Database.epochBound) :
    t.database.epoch = s.database.epoch + n := by
  induction h with
  | none => simp
  | sync _ ih => exact ih room
  | ask _ q ih => exact ih room
  | register _ _ _ _ _ ih =>
      have before := ih (by omega)
      refine (Database.epoch_registered (by omega)).trans ?_
      omega
  | rename _ _ _ _ ih =>
      have before := ih (by omega)
      refine (Database.epoch_replaceFormulas (by omega)).trans ?_
      omega

theorem Moves.database (h : Moves s n t) (idle : n = 0) : t.database = s.database := by
  induction h with
  | none => rfl
  | sync _ ih => exact ih idle
  | ask _ q ih => exact ih idle
  | register => cases idle
  | rename => cases idle

theorem Moves.current (h : Moves s n t) (current : s.Current)
    (room : s.database.epoch + n < Database.epochBound) : t.Current := by
  refine ⟨?_, h.trusted current.trusted⟩
  induction h with
  | none => exact current.seen
  | sync => exact Int.le_of_eq (synced_seenEpoch _)
  | ask _ q ih => exact ih room
  | register h fresh read checked planned ih =>
      have after := (h.register fresh read checked planned).epoch room
      have before := h.epoch (by omega)
      have seen := ih (by omega)
      exact Int.le_trans seen (by omega)
  | rename h fresh read planned ih =>
      have after := (h.rename fresh read planned).epoch room
      have before := h.epoch (by omega)
      have seen := ih (by omega)
      exact Int.le_trans seen (by omega)

theorem Current.written (h : s.Current) {db : Database} (later : s.database.epoch ≤ db.epoch) :
    (s.written db).Current :=
  ⟨Int.le_trans h.seen later, fun _ => .written s db⟩

end Session

namespace Workspace

variable {r : Registry} {w w' : Workspace} {n most : Nat}

/-- How many writes to the formulas an operation can make. -/
def Operation.writes : Operation → Nat
  | .register .. | .rename .. | .updateMetadata .. | .delete _ | .restore _ => 1
  | .importAliases arithmetic priority =>
    (ArithmeticRow.formulas arithmetic ++ PriorityRow.formulas priority).length
  | .backup _ | .evaluate .. | .provide _ => 0

/-- What can become of a workspace by at most so many writes. -/
inductive Outcome (w : Workspace) (most : Nat) : Workspace → Prop
  | moves {t} (h : Session.MovesWithin w.session most t) : Outcome w most { w with session := t }
  | delete (name : String) (h : 1 ≤ most) : Outcome w most
      { w with session := w.session.written (w.session.database.deleteFormula name).2 }
  | metadata (name : String) (json : Json) (h : 1 ≤ most) : Outcome w most
      { w with session.database := (w.session.database.setMetadata name json).2 }
  | backup (path : String) : Outcome w most
      { w with backups := Sorted.put path w.session.database w.backups }
  | restore {p} (hp : p ∈ w.backups) (h : 1 ≤ most) : Outcome w most
      { w with session := w.session.written (w.session.database.restore p.2) }
  | provide (store : Store) : Outcome w most { w with session.engine.store := store }

theorem Outcome.idle (w : Workspace) (most : Nat) : Outcome w most w :=
  .moves ⟨0, Nat.zero_le _, .none⟩

theorem Outcome.after {α : Type} {x : Action α}
    (moves : Action.Contract (· = w.session) x (fun _ => Session.MovesWithin w.session most)
      (Session.MovesWithin w.session most)) : Outcome w most (w.after x) :=
  .moves (moves.leaves rfl)

/-- What an operation does. -/
theorem Operation.outcome (w : Workspace) (operation : Operation) :
    Outcome w operation.writes (operation.run w) := by
  cases operation with
  | register name text options => exact .after (Engine.moves_register name text options)
  | rename old new => exact .after (Engine.moves_renameReferences old new)
  | importAliases arithmetic priority => exact .after (Engine.moves_registerAll _)
  | updateMetadata name metadata =>
      rcases Engine.updateMetadata_leaves name metadata w.session with same | ⟨json, written⟩
      · simp only [Operation.run, after, same]
        exact .idle w _
      · simp only [Operation.run, after, written]
        exact .metadata name json (Nat.le_refl _)
  | delete name => exact .delete name (Nat.le_refl _)
  | backup path => exact .backup path
  | restore path =>
      rcases Engine.restore_leaves (Sorted.get? path w.backups) w.session with same | ⟨db, hdb, written⟩
      · simp only [Operation.run, after, same]
        exact .idle w _
      · simp only [Operation.run, after, written]
        exact .restore (p := (path, db)) (Sorted.mem_of_get? hdb) (Nat.le_refl _)
  | evaluate text options => exact .after (Engine.moves_evaluate text options)
  | provide store => exact .provide store

/-- Behind a cache that can be trusted, what is kept by every kind of write stays true of the database and
    of its backups. -/
theorem Outcome.keeps {I : Database → Prop} (h : Outcome w most w') (lasts : Database.Lasts r I)
    (registry : w.session.engine.registry = r) (trusted : w.session.Trusted)
    (database : I w.session.database) (backups : ∀ p ∈ w.backups, I p.2) :
    w'.session.engine.registry = r ∧ I w'.session.database ∧ ∀ p ∈ w'.backups, I p.2 := by
  cases h with
  | moves h =>
      obtain ⟨n, -, moves⟩ := h
      refine ⟨moves.registry.trans registry, moves.preserves trusted lasts.table ?_ database, backups⟩
      exact fun before changed => lasts.change before (registry ▸ changed)
  | delete name => exact ⟨registry, lasts.delete database name, backups⟩
  | metadata name json => exact ⟨registry, lasts.metadata database name json, backups⟩
  | backup path =>
      refine ⟨registry, database, fun p hp => ?_⟩
      rcases Sorted.mem_put hp with rfl | hp
      · exact database
      · exact backups p hp
  | restore hp => exact ⟨registry, lasts.restore (backups _ hp) _, backups⟩
  | provide => exact ⟨registry, database, backups⟩

/-- No formula leads back to itself, neither in the database nor in a backup of it. -/
structure Acyclic (r : Registry) (w : Workspace) : Prop where
  registry : w.session.engine.registry = r
  database : w.session.database.Acyclic r
  backups : ∀ p ∈ w.backups, p.2.Acyclic r

/-- Behind a cache that can be trusted, no formula comes to lead back to itself. -/
theorem Outcome.keeps_acyclic (h : Outcome w most w') (acyclic : w.Acyclic r) (trusted : w.session.Trusted) :
    w'.Acyclic r := by
  obtain ⟨registry, database, backups⟩ :=
    h.keeps (Database.Acyclic.lasts r) acyclic.registry trusted acyclic.database acyclic.backups
  exact ⟨registry, database, backups⟩

/-- An engine that has its database for itself always has a coherent cache. -/
theorem Outcome.coherent (h : Outcome w most w') (coherent : w.session.Coherent) :
    w'.session.Coherent := by
  cases h with
  | moves h =>
      obtain ⟨n, -, moves⟩ := h
      exact moves.coherent coherent
  | delete => exact .written _ _
  | metadata name json =>
      show FormulaCache.Coherent (w.session.database.setMetadata name json).2.catalog _
      rw [Database.catalog_setMetadata]
      exact coherent
  | backup => exact coherent
  | restore => exact .written _ _
  | provide => exact coherent

/-- After so many writes neither the database nor a backup of it can be in a later epoch. -/
structure Early (n : Nat) (w : Workspace) : Prop where
  database : w.session.database.epoch ≤ n + 1
  backups : ∀ p ∈ w.backups, p.2.epoch ≤ n + 1

/-- As long as epochs do not run out, an engine stays current, and it begins a new epoch if it writes. -/
theorem Outcome.current (h : Outcome w most w') (early : w.Early n)
    (room : n + most + 1 < Database.epochBound) (current : w.session.Current) :
    w'.Early (n + most) ∧ w'.session.Current ∧
      (w'.session.database = w.session.database ∨
        w.session.database.epoch < w'.session.database.epoch) := by
  obtain ⟨database, backups⟩ := early
  have same : w.session.database.epoch ≤ (n + most : Nat) + 1 := by omega
  have kept : ∀ p ∈ w.backups, p.2.epoch ≤ (n + most : Nat) + 1 := by
    intro p hp
    have := backups p hp
    omega
  cases h with
  | moves h =>
      obtain ⟨k, hk, moves⟩ := h
      have epoch := moves.epoch (by omega)
      refine ⟨⟨by simp only [epoch]; omega, kept⟩, moves.current current (by omega), ?_⟩
      rcases Nat.eq_zero_or_pos k with idle | writes
      · exact .inl (moves.database idle)
      · exact .inr (by simp only [epoch]; omega)
  | delete name h =>
      have next : w.session.database.epoch + 1 < Database.epochBound := by omega
      rcases Database.epoch_deleteFormula name next with gone | epoch
      · exact ⟨⟨by simp only [Session.written, gone]; omega, kept⟩,
          current.written (by rw [gone]), .inl gone⟩
      · exact ⟨⟨by simp only [Session.written, epoch]; omega, kept⟩,
          current.written (by omega), .inr (by simp only [Session.written, epoch]; omega)⟩
  | metadata name json h =>
      have next : w.session.database.epoch + 1 < Database.epochBound := by omega
      have epoch := Database.epoch_setMetadata name json next
      have seen := current.seen
      refine ⟨⟨by simp only [epoch]; omega, kept⟩, ⟨by simp only [epoch]; omega, fun now => ?_⟩,
        .inr (by simp only [epoch]; omega)⟩
      -- The engine has not seen the epoch that its own write began.
      simp only [epoch] at now
      omega
  | backup path =>
      refine ⟨⟨same, fun p hp => ?_⟩, current, .inl rfl⟩
      rcases Sorted.mem_put hp with rfl | hp
      · exact same
      · exact kept p hp
  | @restore p hp h =>
      have saved := backups p hp
      have next : max w.session.database.epoch p.2.epoch + 1 < Database.epochBound := by omega
      have epoch := Database.epoch_restore p.2 next
      exact ⟨⟨by simp only [Session.written, epoch]; omega, kept⟩, current.written (by omega),
        .inr (by simp only [Session.written, epoch]; omega)⟩
  | provide store => exact ⟨⟨same, kept⟩, ⟨current.seen, current.trusted⟩, .inl rfl⟩

end Workspace

/-- Engines that share a database, with the backups that were made of it, by path. -/
structure Shared where
  engines : List Engine
  database : Database
  backups : List (String × Database) := []

namespace Shared

/-- An empty database that no engine is on yet. -/
def start : Shared :=
  ⟨[], .create, []⟩

/-- One more engine with these operators. -/
def join (c : Shared) (r : Registry) (store : Store) (config : Config) : Shared :=
  { c with engines := c.engines ++ [{ Engine.create store config c.database with registry := r }] }

/-- One of the engines does something, while the others do nothing. -/
def act (c : Shared) (i : Nat) (f : Workspace → Workspace) : Shared :=
  match c.engines[i]? with
  | none => c
  | some engine =>
    let w := f ⟨⟨engine, c.database⟩, c.backups⟩
    ⟨c.engines.set i w.session.engine, w.session.database, w.backups⟩

/-- States of a run of engines with these operators, after at most so many writes. -/
inductive Reachable (r : Registry) : Nat → Shared → Prop
  | start : Reachable r 0 .start
  | join {n c} (h : Reachable r n c) (store : Store) (config : Config) :
      Reachable r n (c.join r store config)
  | step {n c} (h : Reachable r n c) (i : Nat) (operation : Workspace.Operation) :
      Reachable r (n + operation.writes) (c.act i (fun w => operation.run w))
  /-- Whatever else an engine is asked, it may follow the epoch and look formulas up. -/
  | sync {n c} (h : Reachable r n c) (i : Nat) : Reachable r n (c.act i (·.after Action.sync))
  | query {n c} {α : Type} (h : Reachable r n c) (i : Nat) (q : Query α) :
      Reachable r n (c.act i (·.after (Action.query q)))

variable {r : Registry} {c : Shared} {n most : Nat} {f : Workspace → Workspace}

/-- What holds of an empty database and is kept by whatever engines do. -/
theorem Reachable.invariant {J : Nat → Shared → Prop} (h : Reachable r n c) (start : J 0 .start)
    (join : ∀ {n c} (store : Store) (config : Config), J n c → J n (c.join r store config))
    (act : ∀ {n c most} {f : Workspace → Workspace} (i : Nat),
      (∀ w, Workspace.Outcome w most (f w)) → J n c → J (n + most) (c.act i f)) : J n c := by
  induction h with
  | start => exact start
  | join _ store config ih => exact join store config ih
  | step _ i operation ih => exact act i (fun w => operation.outcome w) ih
  | sync _ i ih => exact act i (fun w => .moves ⟨0, Nat.le_refl 0, Session.Moves.none.sync⟩) ih
  | query _ i q ih => exact act i (fun w => .moves ⟨0, Nat.le_refl 0, Session.Moves.none.ask q⟩) ih

/-- What one engine does is done in its workspace, if there is such an engine. -/
theorem act_cases (c : Shared) (i : Nat) (f : Workspace → Workspace) :
    c.act i f = c ∨ ∃ engine w, c.engines[i]? = some engine ∧
      w = f ⟨⟨engine, c.database⟩, c.backups⟩ ∧
      c.act i f = ⟨c.engines.set i w.session.engine, w.session.database, w.backups⟩ := by
  unfold act
  cases c.engines[i]? with
  | none => exact .inl rfl
  | some engine => exact .inr ⟨engine, _, rfl, rfl, rfl⟩

/-- No formula leads back to itself, and every engine has the operators. -/
structure Acyclic (r : Registry) (c : Shared) : Prop where
  registry : ∀ e ∈ c.engines, e.registry = r
  database : c.database.Acyclic r
  backups : ∀ p ∈ c.backups, p.2.Acyclic r

theorem Acyclic.start (r : Registry) : Acyclic r .start :=
  ⟨by simp [Shared.start], .create r, by simp [Shared.start]⟩

theorem Acyclic.join (h : Acyclic r c) (store : Store) (config : Config) :
    Acyclic r (c.join r store config) := by
  refine ⟨fun e he => ?_, h.database, h.backups⟩
  rcases List.mem_append.1 he with he | he
  · exact h.registry e he
  · rw [List.mem_singleton.1 he]

theorem Acyclic.act (h : Acyclic r c) (i : Nat)
    (trusted : ∀ e ∈ c.engines, (⟨e, c.database⟩ : Session).Trusted)
    (outcome : ∀ w, Workspace.Outcome w most (f w)) : Acyclic r (c.act i f) := by
  rcases c.act_cases i f with idle | ⟨engine, w, here, rfl, acted⟩
  · exact idle.symm ▸ h
  · have mem := List.mem_of_getElem? here
    have before : Workspace.Acyclic r ⟨⟨engine, c.database⟩, c.backups⟩ :=
      ⟨h.registry engine mem, h.database, h.backups⟩
    have after := (outcome _).keeps_acyclic before (trusted engine mem)
    rw [acted]
    refine ⟨fun e he => ?_, after.database, after.backups⟩
    rcases List.mem_or_eq_of_mem_set he with he | rfl
    · exact h.registry e he
    · exact after.registry

/-- An engine that has the database for itself keeps a coherent cache. -/
theorem Reachable.acyclic_alone (h : Reachable r n c) (alone : c.engines.length ≤ 1) :
    c.Acyclic r ∧ ∀ e ∈ c.engines, (⟨e, c.database⟩ : Session).Coherent := by
  revert alone
  refine h.invariant (J := fun _ c => c.engines.length ≤ 1 →
      c.Acyclic r ∧ ∀ e ∈ c.engines, (⟨e, c.database⟩ : Session).Coherent)
    (fun _ => ?_) (fun {n c} store config ih alone => ?_) (fun {n c most f} i outcome ih alone => ?_)
  · exact ⟨.start r, by simp [Shared.start]⟩
  · have empty : c.engines = [] := by simpa [Shared.join] using alone
    obtain ⟨acyclic, -⟩ := ih (by simp [empty])
    refine ⟨acyclic.join store config, fun e he => ?_⟩
    rw [Shared.join, empty, List.nil_append] at he
    rw [List.mem_singleton.1 he]
    exact FormulaCache.Coherent.create _ _
  · rcases c.act_cases i f with idle | ⟨engine, w, here, rfl, acted⟩
    · rw [idle] at alone ⊢
      exact ih alone
    · have few : c.engines.length ≤ 1 := by simpa [acted] using alone
      obtain ⟨acyclic, coherent⟩ := ih few
      have mem := List.mem_of_getElem? here
      refine ⟨acyclic.act i (fun e he _ => coherent e he) outcome, ?_⟩
      obtain ⟨only, hc⟩ : ∃ only, c.engines = [only] :=
        List.length_eq_one_iff.1 (by have := List.length_pos_of_mem mem; omega)
      obtain rfl : i = 0 := by
        have := (List.getElem?_eq_some_iff.1 here).1
        omega
      rw [acted, hc]
      intro e he
      rw [List.mem_singleton.1 he]
      exact (outcome _).coherent (coherent engine mem)

/-- As long as epochs do not run out, no engine has seen an epoch that is still to come, and every one
    that follows the epoch of the database has a coherent cache. -/
theorem Reachable.acyclic_early (h : Reachable r n c) (room : n + 1 < Database.epochBound) :
    c.Acyclic r ∧ c.database.epoch ≤ n + 1 ∧ (∀ p ∈ c.backups, p.2.epoch ≤ n + 1) ∧
      ∀ e ∈ c.engines, (⟨e, c.database⟩ : Session).Current := by
  revert room
  refine h.invariant (J := fun n c => n + 1 < Database.epochBound →
      c.Acyclic r ∧ c.database.epoch ≤ n + 1 ∧ (∀ p ∈ c.backups, p.2.epoch ≤ n + 1) ∧
        ∀ e ∈ c.engines, (⟨e, c.database⟩ : Session).Current)
    (fun _ => ?_) (fun {n c} store config ih room => ?_) (fun {n c most f} i outcome ih room => ?_)
  · exact ⟨.start r, by decide, by simp [Shared.start], by simp [Shared.start]⟩
  · obtain ⟨acyclic, early, saved, current⟩ := ih room
    refine ⟨acyclic.join store config, early, saved, fun e he => ?_⟩
    rcases List.mem_append.1 he with he | he
    · exact current e he
    · rw [List.mem_singleton.1 he]
      exact ⟨Int.le_refl _, fun _ => FormulaCache.Coherent.create _ _⟩
  · obtain ⟨acyclic, early, saved, current⟩ := ih (by omega)
    have acts := acyclic.act i (fun e he => (current e he).trusted) outcome
    rcases c.act_cases i f with idle | ⟨engine, w, here, rfl, acted⟩
    · rw [idle] at acts ⊢
      exact ⟨acts, by omega, fun p hp => by have := saved p hp; omega, current⟩
    · have mem := List.mem_of_getElem? here
      obtain ⟨⟨later, kept⟩, own, moved⟩ :=
        (outcome ⟨⟨engine, c.database⟩, c.backups⟩).current ⟨early, saved⟩ (by omega)
          (current engine mem)
      refine ⟨acts, by rw [acted]; exact later, by rw [acted]; exact kept, ?_⟩
      rw [acted]
      intro e he
      rcases List.mem_or_eq_of_mem_set he with he | rfl
      · obtain ⟨seen, trusted⟩ := current e he
        rcases moved with same | next
        · exact ⟨by rw [same]; exact seen, by rw [same]; exact trusted⟩
        · -- Another engine wrote, and this one has not seen the epoch that it began.
          refine ⟨by simp only at seen next ⊢; omega, fun now => ?_⟩
          simp only at seen next now
          omega
      · exact own

/-- In every state of a run no formula leads back to itself, and the cache of each engine can be trusted.
    Epochs must not run out where there are several engines: a cache is told by its epoch alone whether it is
    out of date. -/
theorem Reachable.safe (h : Reachable r n c) (room : c.engines.length ≤ 1 ∨ n < 2 ^ 63 - 1) :
    c.Acyclic r ∧ ∀ e ∈ c.engines, (⟨e, c.database⟩ : Session).Trusted := by
  rcases room with alone | room
  · obtain ⟨acyclic, coherent⟩ := h.acyclic_alone alone
    exact ⟨acyclic, fun e he _ => coherent e he⟩
  · obtain ⟨acyclic, -, -, current⟩ := h.acyclic_early (by unfold Database.epochBound; omega)
    exact ⟨acyclic, fun e he => (current e he).trusted⟩

theorem length_act (c : Shared) (i : Nat) (f : Workspace → Workspace) :
    (c.act i f).engines.length = c.engines.length := by
  rcases c.act_cases i f with idle | ⟨_, _, _, _, acted⟩
  · rw [idle]
  · rw [acted]
    exact List.length_set

/-- In every state of a run the database and its backups have every property of an empty database that all
    kinds of writes keep. Epochs must not run out where there are several engines. -/
theorem Reachable.lasting {I : Database → Prop} (h : Reachable r n c) (lasts : Database.Lasts r I)
    (empty : I .create) (room : c.engines.length ≤ 1 ∨ n < 2 ^ 63 - 1) :
    I c.database ∧ ∀ p ∈ c.backups, I p.2 := by
  have act : ∀ {n c most f}, Reachable r n c →
      (c.engines.length ≤ 1 ∨ n < 2 ^ 63 - 1 → I c.database ∧ ∀ p ∈ c.backups, I p.2) →
      ∀ i, (∀ w, Workspace.Outcome w most (f w)) →
      (c.act i f).engines.length ≤ 1 ∨ n + most < 2 ^ 63 - 1 →
        I (c.act i f).database ∧ ∀ p ∈ (c.act i f).backups, I p.2 := by
    intro n c most f h ih i outcome room
    rw [length_act] at room
    have room : c.engines.length ≤ 1 ∨ n < 2 ^ 63 - 1 := by omega
    obtain ⟨acyclic, trusted⟩ := h.safe room
    obtain ⟨database, backups⟩ := ih room
    rcases c.act_cases i f with idle | ⟨engine, w, here, rfl, acted⟩
    · rw [idle]
      exact ⟨database, backups⟩
    · have mem := List.mem_of_getElem? here
      rw [acted]
      exact ((outcome _).keeps lasts (acyclic.registry engine mem) (trusted engine mem) database
        backups).2
  induction h with
  | start => exact ⟨empty, nofun⟩
  | @join n c _ store config ih =>
      refine ih ?_
      rw [Shared.join, List.length_append, List.length_singleton] at room
      omega
  | step h i operation ih => exact act h ih i (fun w => operation.outcome w) room
  | sync h i ih =>
      exact @act _ _ 0 _ h ih i (fun w => .moves ⟨0, Nat.le_refl 0, Session.Moves.none.sync⟩) room
  | query h i q ih =>
      exact @act _ _ 0 _ h ih i (fun w => .moves ⟨0, Nat.le_refl 0, Session.Moves.none.ask q⟩) room

/-- In every state of a run of engines that share a database, each stored formula can be read and what it
    names can be found, and no formula leads back to itself by naming other ones. Epochs must not run out
    where there are several engines. -/
theorem acyclic (h : Reachable r n c) (room : c.engines.length ≤ 1 ∨ n < 2 ^ 63 - 1) (store : Store) :
    (∀ name row, c.database.formulas.row? name = some row → ∃ e found, Expr.ofText row.text = .ok e ∧
      (Dependencies.direct r store e).run c.database.catalog = .ok found) ∧
    ∀ name, ¬ Relation.TransGen (c.database.Names r store) name name := by
  have safe : c.database.Acyclic r := (h.safe room).1.database
  refine ⟨fun name row stored => ?_, fun name path => ?_⟩
  · obtain ⟨tree, answer⟩ := safe.readable name
    simp only [Database.catalog, stored] at answer
    obtain ⟨e, text, -⟩ := ok_of_map answer
    obtain ⟨found, run⟩ := safe.direct_ok store e
    exact ⟨e, found, text, run⟩
  · have edges : c.database.Names r store ≤ c.database.catalog.Leads r :=
      fun _ _ names => safe.leads_of_names names
    exact safe.chains name (Relation.TransGen.mono edges _ _ path)

/-- Two engines write two formulas that read one another's names, and a third one that would close the
    chain is turned away. -/
theorem acyclic_turned_away : ∃ c, Reachable .builtin 3 c ∧ c.engines.length = 2 ∧
    c.database.formulas.names = ["base", "sum"] ∧
    (c.database.formulas.row? "sum").map FormulaRow.text = some "(+ 1 (series \"base\"))" ∧
    (∀ name row, c.database.formulas.row? name = some row → ∃ e found,
      Expr.ofText row.text = .ok e ∧
        (Dependencies.direct .builtin {} e).run c.database.catalog = .ok found) ∧
    ∀ name, ¬ Relation.TransGen (c.database.Names .builtin {}) name name := by
  have engines : Reachable .builtin 0 _ := (Reachable.start.join {} {}).join {} {}
  have first := engines.step 0 (.register "sum" "(+ 1 (series \"base\"))" { rejectUnknown := false })
  have second := first.step 1 (.register "base" "(series \"late\")" { rejectUnknown := false })
  have third := second.step 0 (.register "late" "(series \"sum\")" { rejectUnknown := false })
  exact ⟨_, third, by decide +kernel, by decide +kernel, by decide +kernel,
    acyclic third (.inr (by decide)) {}⟩

end Shared

end SeriesLang
