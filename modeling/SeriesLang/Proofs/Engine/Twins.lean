import SeriesLang.Proofs.Engine.Traffic

/-! # Twins

Two engines over the same tables that differ at most in what they keep. As long as neither keeps what is out
of date, they cannot be told apart by what they answer. The rules say so for sequences of steps, of which
both engines do the same ones.
-/

namespace SeriesLang

namespace Cache

variable {κ α : Type} [DecidableEq κ] {c c' : Cache κ α} {key : κ} {value : α}

theorem mem_insert {p : κ × α} (h : p ∈ (c.insert key value).entries) : p = (key, value) ∨ p ∈ c.entries := by
  rcases List.mem_append.1 (List.mem_of_mem_drop h) with hp | hp
  · exact .inr (List.mem_filter.1 hp).1
  · exact .inl (List.mem_singleton.1 hp)

theorem of_get?_some (h : c.get? key = (some value, c')) :
    (key, value) ∈ c.entries ∧ ∀ p ∈ c'.entries, p ∈ c.entries := by
  unfold get? at h
  cases found : c.peek? key with
  | none =>
      rw [found] at h
      cases h
  | some other =>
      rw [found] at h
      cases h
      obtain ⟨p, hp, rfl⟩ := Option.map_eq_some_iff.1 found
      have mem := List.mem_of_find?_eq_some hp
      have same : p.1 = key := by simpa using List.find?_some hp
      rw [← same]
      refine ⟨mem, fun q hq => ?_⟩
      rcases List.mem_append.1 hq with hq | hq
      · exact (List.mem_filter.1 hq).1
      · rw [List.mem_singleton.1 hq]
        exact mem

end Cache

namespace Session

/-- Sessions that differ in what their engines keep at most. -/
structure Twins (s t : Session) : Prop where
  database : t.database = s.database
  registry : t.engine.registry = s.engine.registry
  store : t.engine.store = s.engine.store
  config : t.engine.config = s.engine.config
  seenEpoch : t.engine.seenEpoch = s.engine.seenEpoch

variable {s s' t t' : Session} {known : List Expr}

theorem Twins.refl (s : Session) : s.Twins s :=
  ⟨rfl, rfl, rfl, rfl, rfl⟩

theorem Twins.between (h : s.Twins t) (hs : s.Twins s') (ht : t.Twins t') : s'.Twins t' where
  database := by rw [ht.database, h.database, hs.database]
  registry := by rw [ht.registry, h.registry, hs.registry]
  store := by rw [ht.store, h.store, hs.store]
  config := by rw [ht.config, h.config, hs.config]
  seenEpoch := by rw [ht.seenEpoch, h.seenEpoch, hs.seenEpoch]

theorem synced_config (s : Session) : s.synced.engine.config = s.engine.config := by
  unfold synced Engine.sync
  split <;> rfl

theorem Twins.synced (h : s.Twins t) : s.synced.Twins t.synced where
  database := h.database
  registry := by rw [synced_registry, synced_registry, h.registry]
  store := by rw [synced_store, synced_store, h.store]
  config := by rw [synced_config, synced_config, h.config]
  seenEpoch := by rw [synced_seenEpoch, synced_seenEpoch, h.database]

theorem Twins.env (h : s.Twins t) (cancelled : Bool) : t.engine.env cancelled = s.engine.env cancelled := by
  simp only [Engine.env, h.registry, h.store, h.config]

/-- What is kept of which expressions look at one instant at a time was asked and is still so. -/
def Judged (known : List Expr) (s : Session) : Prop :=
  ∀ p ∈ s.engine.pointwise.entries, ∃ e ∈ known, e.contentHash = p.1 ∧
    (Staircase.isPointwise s.engine.registry e).run s.database.catalog = .ok p.2

/-- An engine that keeps nothing that is out of date, unless the epoch has moved since. -/
structure Kept (known : List Expr) (s : Session) : Prop where
  trusted : s.Trusted
  judged : s.engine.seenEpoch = s.database.epoch → s.Judged known

theorem Kept.cleared (engine : Engine) (db : Database) : Kept known ⟨engine.clearCaches, db⟩ :=
  ⟨fun _ => .clear _ _, fun _ => nofun⟩

theorem Kept.mono {more : List Expr} (h : s.Kept known) (le : known ⊆ more) : s.Kept more := by
  refine ⟨h.trusted, fun same p hp => ?_⟩
  obtain ⟨e, he, found⟩ := h.judged same p hp
  exact ⟨e, le he, found⟩

theorem Kept.synced (h : s.Kept known) : s.synced.Kept known := by
  unfold Session.synced Engine.sync
  split
  · exact h
  · exact ⟨fun _ => .clear _ _, fun _ => nofun⟩

theorem Kept.asked {α : Type} (h : s.Kept known) (q : Query α) : (s.asked q).Kept known :=
  ⟨fun same => (h.trusted same).asked q, h.judged⟩

/-- A session keeps nothing that is out of date when others write, either. -/
theorem Kept.behind (h : s.Kept known) (current : s.Current) {db : Database}
    (follows : s.database.Follows db) : Kept known { s with database := db } := by
  refine ⟨(current.behind follows).trusted, fun same p hp => ?_⟩
  obtain ⟨before, catalog⟩ := current.catalog follows same
  obtain ⟨e, he, hash, answer⟩ := h.judged before p hp
  exact ⟨e, he, hash, catalog ▸ answer⟩

/-- After it was noted whether an expression looks at one instant at a time. -/
def noted (s : Session) (e : Expr) (answer : Bool) : Session :=
  { s with engine.pointwise := s.engine.pointwise.insert e.contentHash answer }

theorem run_query {α : Type} (q : Query α) (s : Session) : Action.query q s = (s.answer q, s.asked q) := rfl

theorem run_isPointwise (e : Expr) (s : Session) : Engine.isPointwise e s =
    match s.engine.pointwise.get? e.contentHash with
    | (some answer, pointwise) => (.ok answer, { s with engine.pointwise := pointwise })
    | (none, _) =>
      match s.answer (Staircase.isPointwise s.engine.registry e) with
      | .ok answer => (.ok answer, (s.asked (Staircase.isPointwise s.engine.registry e)).noted e answer)
      | .error error => (.error error, s.asked (Staircase.isPointwise s.engine.registry e)) := by
  have run : Engine.isPointwise e s = (match s.engine.pointwise.get? e.contentHash with
      | (some answer, pointwise) => (do
          modify (fun s : Session => { s with engine := { s.engine with pointwise } })
          return answer : Action Bool)
      | (none, _) => do
          let answer ← Action.query (Staircase.isPointwise s.engine.registry e)
          modify (fun s : Session => { s with
            engine := { s.engine with pointwise := s.engine.pointwise.insert e.contentHash answer } })
          return answer) s := rfl
  rw [run]
  cases s.engine.pointwise.get? e.contentHash with
  | mk found pointwise =>
      cases found with
      | some answer => rfl
      | none =>
          show (Action.query (Staircase.isPointwise s.engine.registry e) >>= _) s = _
          rw [Action.run_bind]
          rw [run_query]
          simp only
          cases s.answer (Staircase.isPointwise s.engine.registry e) <;> rfl

/-- Whether an expression looks at one instant at a time is told as if nothing were kept. -/
theorem Kept.isPointwise (h : s.Kept known) (followed : s.engine.seenEpoch = s.database.epoch) {e : Expr}
    (he : e ∈ known) (distinct : ∀ a ∈ known, a.contentHash = e.contentHash → a = e) :
    (Engine.isPointwise e s).1 =
        (Staircase.isPointwise s.engine.registry e).run s.database.catalog ∧
      s.Twins (Engine.isPointwise e s).2 ∧ (Engine.isPointwise e s).2.Kept known := by
  have judged := h.judged followed
  have coherent := h.trusted followed
  rw [run_isPointwise]
  cases found : s.engine.pointwise.get? e.contentHash with
  | mk answer pointwise =>
      cases answer with
      | some answer =>
          -- What was kept under the hash was told of an expression with that hash, so of `e`.
          obtain ⟨mem, kept⟩ := Cache.of_get?_some found
          obtain ⟨a, ha, hash, told⟩ := judged _ mem
          cases distinct a ha hash
          exact ⟨told.symm, ⟨rfl, rfl, rfl, rfl, rfl⟩, h.trusted, fun _ p hp => judged p (kept p hp)⟩
      | none =>
          have asked := h.asked (Staircase.isPointwise s.engine.registry e)
          have answer := coherent.answer (Staircase.isPointwise s.engine.registry e)
          simp only
          cases told : s.answer (Staircase.isPointwise s.engine.registry e) with
          | error error =>
              rw [told] at answer
              exact ⟨answer, ⟨rfl, rfl, rfl, rfl, rfl⟩, asked⟩
          | ok b =>
              rw [told] at answer
              refine ⟨answer, ⟨rfl, rfl, rfl, rfl, rfl⟩, asked.trusted, fun _ p hp => ?_⟩
              rcases Cache.mem_insert hp with rfl | hp
              · exact ⟨e, he, rfl, answer.symm⟩
              · exact judged p hp

/-- Twins that keep nothing that is out of date. -/
structure Even (known : List Expr) (s t : Session) : Prop where
  twins : s.Twins t
  left : s.Kept known
  right : t.Kept known

/-- Twins that have followed the epoch. -/
structure Fresh (known : List Expr) (s t : Session) : Prop extends Even known s t where
  followed : s.engine.seenEpoch = s.database.epoch

theorem Fresh.followed' (h : Fresh known s t) : t.engine.seenEpoch = t.database.epoch := by
  rw [h.twins.seenEpoch, h.twins.database, h.followed]

end Session

namespace Action

open Session (Twins Even Fresh)

variable {α β : Type} {P Q R : Session → Session → Prop} {known : List Expr}

/-- Of two sessions that `P` relates, one answers with one action what the other answers with the other
    action, and they are left as `Q` relates them. -/
def Paired (P : Session → Session → Prop) (x y : Action α) (Q : Session → Session → Prop) : Prop :=
  ∀ s t, P s t → (x s).1 = (y t).1 ∧ Q (x s).2 (y t).2

theorem Paired.bind {x y : Action α} {f g : α → Action β} (first : Paired P x y Q)
    (rest : ∀ a, Paired Q (f a) (g a) R) (fails : ∀ {s t}, Q s t → R s t) :
    Paired P (x >>= f) (y >>= g) R := by
  intro s t h
  obtain ⟨same, left⟩ := first s t h
  rw [run_bind, run_bind]
  cases hx : x s with
  | mk result s' =>
      cases hy : y t with
      | mk result' t' =>
          rw [hx, hy] at same left
          cases same
          cases result with
          | ok a => exact rest a s' t' left
          | error e => exact ⟨rfl, fails left⟩

theorem Paired.weaken {x y : Action α} (h : Paired P x y Q) (left : ∀ {s t}, Q s t → R s t) :
    Paired P x y R :=
  fun s t hP => ⟨(h s t hP).1, left (h s t hP).2⟩

theorem Paired.given {x y : Action α} (h : Paired P x y Q) (right : ∀ {s t}, R s t → P s t) :
    Paired R x y Q :=
  fun s t hR => h s t (right hR)

theorem Paired.pure (a : α) : Paired P (pure a) (pure a) P := fun _ _ h => ⟨rfl, h⟩

/-- What would come after a failure does not count. -/
theorem Paired.throw {e : Error} {f g : α → Action β} (fails : ∀ {s t}, P s t → Q s t) :
    Paired P ((throw e : Action α) >>= f) ((throw e : Action α) >>= g) Q :=
  fun _ _ h => ⟨rfl, fails h⟩

theorem Paired.ofExcept (r : Except Error α) : Paired P (ofExcept r) (ofExcept r) P :=
  fun _ _ h => ⟨rfl, h⟩

theorem Paired.read {r : Except Error α} {f g : α → Action β}
    (rest : ∀ a, r = .ok a → Paired P (f a) (g a) Q) (fails : ∀ {s t}, P s t → Q s t) :
    Paired P (Action.ofExcept r >>= f) (Action.ofExcept r >>= g) Q := by
  intro s t h
  rw [run_bind, run_bind, Action.ofExcept, Action.ofExcept]
  cases hr : r with
  | ok a => exact rest a hr s t h
  | error e => exact ⟨rfl, fails h⟩

theorem Paired.ite {c : Prop} [Decidable c] {x y x' y' : Action α} (yes : Paired P x y Q)
    (no : Paired P x' y' Q) : Paired P (if c then x else x') (if c then y else y') Q := by
  split
  · exact yes
  · exact no

theorem Paired.database (same : ∀ {s t}, P s t → t.database = s.database) :
    Paired P database database P :=
  fun _ _ h => ⟨congrArg Except.ok (same h).symm, h⟩

/-- What is done with an engine may depend on what both twins have in common. -/
theorem Paired.engine (twins : ∀ {s t}, P s t → s.Twins t) {f g : Engine → Action β}
    (rest : ∀ s t : Session, s.Twins t → Paired P (f s.engine) (g t.engine) Q) :
    Paired P (Action.engine >>= f) (Action.engine >>= g) Q :=
  fun s t h => rest s t (twins h) s t h

theorem paired_sync : Paired (Even known) sync sync (Fresh known) := by
  intro s t h
  refine ⟨?_, ⟨h.twins.synced, h.left.synced, h.right.synced⟩, Session.synced_seenEpoch s⟩
  show Except.ok s.database.epoch = Except.ok t.database.epoch
  rw [h.twins.database]

theorem paired_query (q : Query α) : Paired (Fresh known) (query q) (query q) (Fresh known) := by
  intro s t h
  refine ⟨?_, ⟨⟨h.twins.database, h.twins.registry, h.twins.store, h.twins.config, h.twins.seenEpoch⟩,
    h.left.asked q, h.right.asked q⟩, h.followed⟩
  show s.answer q = t.answer q
  rw [(h.left.trusted h.followed).answer, (h.right.trusted h.followed').answer, h.twins.database]

theorem paired_isPointwise {e : Expr} (he : e ∈ known)
    (distinct : ∀ a ∈ known, a.contentHash = e.contentHash → a = e) :
    Paired (Fresh known) (Engine.isPointwise e) (Engine.isPointwise e) (Fresh known) := by
  intro s t h
  obtain ⟨answer, twins, kept⟩ := h.left.isPointwise h.followed he distinct
  obtain ⟨answer', twins', kept'⟩ := h.right.isPointwise h.followed' he distinct
  refine ⟨?_, ⟨h.twins.between twins twins', kept, kept'⟩, ?_⟩
  · rw [answer, answer', h.twins.registry, h.twins.database]
  · rw [twins.seenEpoch, twins.database, h.followed]

/-- After a write both engines give up what they keep. -/
theorem paired_write (f : Database → Except Error (α × Database)) (g : α → β) :
    Paired (Even known) (write f >>= fun a => clearCaches >>= fun _ => pure (g a))
      (write f >>= fun a => clearCaches >>= fun _ => pure (g a)) (Even known) := by
  intro s t h
  rw [run_bind, run_bind, write, write, h.twins.database]
  cases f s.database with
  | error e => exact ⟨rfl, h⟩
  | ok p =>
      exact ⟨rfl, ⟨rfl, h.twins.registry, h.twins.store, h.twins.config, h.twins.seenEpoch⟩,
        .cleared _ _, .cleared _ _⟩

end Action

namespace Engine

open SeriesLang.Action
open Session (Even Fresh)

variable {known : List Expr}

/-- A question to the formulas about what a request names. -/
theorem paired_request {α : Type} (text : String) (options : ReadOptions) (q : Env → Expr → Query α) :
    Paired (Even known)
      (do
        let _ ← Action.sync
        let e ← Action.ofExcept (Expr.ofRequest text)
        let env := (← Action.engine).env options.cancelled
        query (q env e))
      (do
        let _ ← Action.sync
        let e ← Action.ofExcept (Expr.ofRequest text)
        let env := (← Action.engine).env options.cancelled
        query (q env e))
      (Even known) := by
  refine paired_sync.bind (fun _ => ?_) Fresh.toEven
  refine Paired.read (fun e _ => ?_) Fresh.toEven
  refine Paired.engine (fun h => h.twins) (fun s t twins => ?_)
  simp only [twins.env]
  exact (paired_query _).weaken Fresh.toEven

theorem paired_evaluate (text : String) (options : ReadOptions) :
    Paired (Even known) (evaluate text options) (evaluate text options) (Even known) :=
  paired_request text options (fun env e => env.evaluate options.context e)

theorem paired_evaluateSeries (text : String) (options : ReadOptions) :
    Paired (Even known) (evaluateSeries text options) (evaluateSeries text options) (Even known) :=
  (paired_evaluate text options).bind (fun _ => .ofExcept _) id

theorem paired_naiveStaircase (text : String) (lag : Lag) (options : ReadOptions) :
    Paired (Even known) (naiveStaircase text lag options) (naiveStaircase text lag options) (Even known) :=
  paired_request text options (fun env e => Staircase.naive env options.context lag e)

theorem paired_history (text : String) (bound : Window) (options : ReadOptions) :
    Paired (Even known) (history text bound options) (history text bound options) (Even known) :=
  paired_request text options (fun env e => historyOf env options.context bound e)

theorem paired_staircase (text : String) (lag : Lag) (options : ReadOptions)
    (asked : ∀ e, Expr.ofRequest text = .ok e →
      e ∈ known ∧ ∀ a ∈ known, a.contentHash = e.contentHash → a = e) :
    Paired (Even known) (staircase text lag options) (staircase text lag options) (Even known) := by
  refine paired_sync.bind (fun _ => ?_) Fresh.toEven
  refine Paired.read (fun e read => ?_) Fresh.toEven
  obtain ⟨he, distinct⟩ := asked e read
  refine (paired_isPointwise he distinct).bind (fun pointwise => ?_) Fresh.toEven
  refine Paired.engine (fun h => h.twins) (fun s t twins => ?_)
  simp only [twins.env]
  exact (paired_query _).weaken Fresh.toEven

theorem paired_expanded (name : String) :
    Paired (Even known) (expanded name) (expanded name) (Even known) :=
  paired_sync.bind (fun _ => (paired_query _).weaken Fresh.toEven) Fresh.toEven

theorem paired_componentTable (name : String) :
    Paired (Even known) (componentTable name) (componentTable name) (Even known) := by
  refine paired_sync.bind (fun _ => ?_) Fresh.toEven
  refine Paired.engine (fun h => h.twins) (fun s t twins => ?_)
  simp only [twins.registry, twins.store]
  exact (paired_query _).weaken Fresh.toEven

/-- The components of the expanded text; for it the epoch is followed. -/
theorem paired_components (name : String) :
    Paired (Even known) (components name true) (components name true) (Even known) := by
  have expanded : Paired (Even known) (expanded name) (expanded name) (Fresh known) :=
    paired_sync.bind (fun _ => paired_query _) id
  refine expanded.bind (fun tree => (Paired.pure _).bind (fun text => ?_) Fresh.toEven) Fresh.toEven
  cases text with
  | none => exact (Paired.pure _).weaken Fresh.toEven
  | some text =>
      refine Paired.read (fun e _ => ?_) Fresh.toEven
      refine Paired.engine (fun h => h.twins) (fun s t twins => ?_)
      simp only [twins.registry, twins.store]
      exact (paired_query _).weaken Fresh.toEven

theorem paired_register (name text : String) (options : RegisterOptions) :
    Paired (Even known) (register name text options) (register name text options) (Even known) := by
  unfold register
  refine Paired.read (fun e _ => ?_) id
  refine Paired.engine (fun h => h.twins) (fun s t twins => ?_)
  simp only [twins.registry]
  refine Paired.read (fun _ _ => ?_) id
  refine paired_sync.bind (fun resolvedAt => ?_) Fresh.toEven
  refine Paired.engine (fun h => h.twins) (fun s t twins => ?_)
  simp only [twins.registry, twins.store]
  refine (Paired.database (fun h => h.twins.database)).bind (fun db => ?_) Fresh.toEven
  refine .ite (Paired.throw Fresh.toEven) ?_
  refine (paired_query _).bind (fun (w, refreshed) => ?_) Fresh.toEven
  exact (paired_write _ id).given Fresh.toEven

theorem paired_registerAll (formulas : List (String × Expr)) :
    Paired (Even known) (registerAll formulas) (registerAll formulas) (Even known) := by
  induction formulas with
  | nil => exact .pure _
  | cons p rest ih =>
      obtain ⟨name, e⟩ := p
      unfold registerAll
      refine (Paired.database (fun h => h.twins.database)).bind (fun db => .ite ih ?_) id
      exact (paired_register name e.canonical _).bind (fun _ => ih.bind (fun _ => .pure _) id) id

theorem paired_renameReferences (old new : String) :
    Paired (Even known) (renameReferences old new) (renameReferences old new) (Even known) := by
  unfold renameReferences
  refine paired_sync.bind (fun _ => ?_) Fresh.toEven
  refine Paired.engine (fun h => h.twins) (fun s t twins => ?_)
  simp only [twins.registry, twins.store]
  refine (Paired.database (fun h => h.twins.database)).bind (fun db => ?_) Fresh.toEven
  refine Paired.read (fun formulas _ => ?_) Fresh.toEven
  refine .ite (Paired.throw Fresh.toEven) ?_
  refine .ite ((Paired.pure _).weaken Fresh.toEven) ?_
  refine (paired_query _).bind (fun writes => ?_) Fresh.toEven
  exact (paired_write _ _).given Fresh.toEven

end Engine

end SeriesLang
