import SeriesLang.Engine.Basic

/-! # Contracts of actions

A contract says what holds after an action that succeeds or fails, where something held before it. From a
session that is known every step of an action leads to one that is known as well.
-/

namespace SeriesLang

namespace Action

variable {α β : Type} {P : Session → Prop} {Q Q' : α → Session → Prop} {R : β → Session → Prop}
  {E E' : Session → Prop}

/-- Where `P` held before an action, `Q` holds after it succeeds, and `E` after it fails. -/
def Contract (P : Session → Prop) (x : Action α) (Q : α → Session → Prop) (E : Session → Prop) :
    Prop :=
  ∀ s, P s → (∀ a s', x s = (.ok a, s') → Q a s') ∧ (∀ e s', x s = (.error e, s') → E s')

/-- A sequence runs one step after the other, unless the first one fails. -/
theorem run_bind (x : Action α) (f : α → Action β) (s : Session) :
    (x >>= f) s = match x s with
      | (.ok a, s') => f a s'
      | (.error e, s') => (.error e, s') := by
  show ExceptT.bindCont f (x s).1 (x s).2 = _
  cases x s with
  | mk result s' => cases result <;> rfl

theorem Contract.bind {x : Action α} {f : α → Action β} (first : Contract P x Q E)
    (rest : ∀ a, Contract (Q a) (f a) R E) : Contract P (x >>= f) R E := by
  intro s hs
  obtain ⟨success, failure⟩ := first s hs
  rw [run_bind]
  cases hx : x s with
  | mk result s' =>
      cases result with
      | ok a => exact rest a s' (success a s' hx)
      | error e =>
          refine ⟨fun _ _ h => ?_, fun _ _ h => ?_⟩
          · cases h
          · cases h
            exact failure e s' hx

theorem Contract.pure {a : α} (h : ∀ s, P s → Q a s) : Contract P (pure a) Q E := by
  intro s hs
  refine ⟨fun _ _ heq => ?_, fun _ _ heq => ?_⟩
  · cases heq
    exact h s hs
  · cases heq

theorem Contract.throw {e : Error} (h : ∀ s, P s → E s) : Contract P (throw e : Action α) Q E := by
  intro s hs
  refine ⟨fun _ _ heq => ?_, fun _ _ heq => ?_⟩
  · cases heq
  · cases heq
    exact h s hs

theorem Contract.weaken {x : Action α} (h : Contract P x Q E) (success : ∀ a s, Q a s → Q' a s)
    (failure : ∀ s, E s → E' s) : Contract P x Q' E' := by
  intro s hs
  obtain ⟨succeeds, fails⟩ := h s hs
  exact ⟨fun a s' heq => success a s' (succeeds a s' heq), fun e s' heq => failure s' (fails e s' heq)⟩

/-- What holds from each session that is known. -/
theorem Contract.ofEach {x : Action α} (h : ∀ s, P s → Contract (· = s) x Q E) : Contract P x Q E :=
  fun s hs => h s hs s rfl

theorem Contract.assume {c : Prop} {x : Action α} (h : c → Contract P x Q E) :
    Contract (fun s => P s ∧ c) x Q E :=
  fun s hs => h hs.2 s hs.1

theorem Contract.exists {γ : Type} {P : γ → Session → Prop} {x : Action α}
    (h : ∀ c, Contract (P c) x Q E) : Contract (fun s => ∃ c, P c s) x Q E :=
  fun s ⟨c, hs⟩ => h c s hs

theorem Contract.ite {c : Prop} [Decidable c] {x y : Action α} (yes : c → Contract P x Q E)
    (no : ¬c → Contract P y Q E) : Contract P (if c then x else y) Q E := by
  split
  · rename_i h
    exact yes h
  · rename_i h
    exact no h

theorem run_of_fst {x : Action α} {s : Session} {result : Except Error α} (h : (x s).1 = result) :
    x s = (result, (x s).2) :=
  Prod.ext h rfl

/-- What an action leaves, whether it succeeds or not. -/
theorem Contract.leaves {x : Action α} (h : Contract P x (fun _ => E) E) {s : Session} (hs : P s) :
    E (x s).2 := by
  obtain ⟨success, failure⟩ := h s hs
  cases outcome : x s with
  | mk result s' =>
      cases result with
      | ok a => exact success a s' outcome
      | error e => exact failure e s' outcome

end Action

namespace Session

variable {α : Type}

/-- After the engine has followed the epoch of the database. -/
def synced (s : Session) : Session :=
  { s with engine := s.engine.sync s.database }

/-- After a query, which may have filled the cache. -/
def asked (s : Session) (q : Query α) : Session :=
  { s with engine.trees := (q.runCached s.database.catalog s.engine.trees).2 }

/-- What a query gives behind the cache. -/
def answer (s : Session) (q : Query α) : Except Error α :=
  (q.runCached s.database.catalog s.engine.trees).1

/-- After a write, for which the engine has given up what it kept. -/
def written (s : Session) (db : Database) : Session :=
  ⟨s.engine.clearCaches, db⟩

@[simp] theorem synced_database (s : Session) : s.synced.database = s.database := rfl

@[simp] theorem asked_database (s : Session) (q : Query α) : (s.asked q).database = s.database := rfl

@[simp] theorem written_database (s : Session) (db : Database) : (s.written db).database = db := rfl

@[simp] theorem synced_registry (s : Session) : s.synced.engine.registry = s.engine.registry := by
  unfold synced Engine.sync
  split <;> rfl

theorem synced_store (s : Session) : s.synced.engine.store = s.engine.store := by
  unfold synced Engine.sync
  split <;> rfl

@[simp] theorem asked_registry (s : Session) (q : Query α) :
    (s.asked q).engine.registry = s.engine.registry := rfl

@[simp] theorem written_registry (s : Session) (db : Database) :
    (s.written db).engine.registry = s.engine.registry := rfl

@[simp] theorem synced_seenEpoch (s : Session) : s.synced.engine.seenEpoch = s.database.epoch := by
  unfold synced Engine.sync
  split
  · rename_i same
    exact same
  · rfl

@[simp] theorem asked_seenEpoch (s : Session) (q : Query α) :
    (s.asked q).engine.seenEpoch = s.engine.seenEpoch := rfl

@[simp] theorem written_seenEpoch (s : Session) (db : Database) :
    (s.written db).engine.seenEpoch = s.engine.seenEpoch := rfl

end Session

namespace Action

variable {α : Type} {s : Session} {E : Session → Prop}

theorem contract_ofExcept (result : Except Error α) (fails : E s) :
    Contract (· = s) (ofExcept result) (fun a t => t = s ∧ result = .ok a) E := by
  rintro _ rfl
  refine ⟨fun a t heq => ?_, fun e t heq => ?_⟩
  · cases heq
    exact ⟨rfl, rfl⟩
  · cases heq
    exact fails

theorem contract_engine : Contract (· = s) engine (fun e t => t = s ∧ e = s.engine) E := by
  rintro _ rfl
  refine ⟨fun a t heq => ?_, fun e t heq => ?_⟩
  · cases heq
    exact ⟨rfl, rfl⟩
  · cases heq

theorem contract_database : Contract (· = s) database (fun db t => t = s ∧ db = s.database) E := by
  rintro _ rfl
  refine ⟨fun a t heq => ?_, fun e t heq => ?_⟩
  · cases heq
    exact ⟨rfl, rfl⟩
  · cases heq

theorem contract_sync :
    Contract (· = s) sync (fun epoch t => t = s.synced ∧ epoch = s.database.epoch) E := by
  rintro _ rfl
  refine ⟨fun a t heq => ?_, fun e t heq => ?_⟩
  · cases heq
    exact ⟨rfl, rfl⟩
  · cases heq

theorem contract_query (q : Query α) (fails : E (s.asked q)) :
    Contract (· = s) (query q) (fun a t => t = s.asked q ∧ s.answer q = .ok a) E := by
  rintro s rfl
  refine ⟨fun a t heq => ?_, fun e t heq => ?_⟩
  · exact ⟨(congrArg Prod.snd heq).symm, congrArg Prod.fst heq⟩
  · have left : s.asked q = t := congrArg Prod.snd heq
    exact left ▸ fails

theorem contract_write {f : Database → Except Error (α × Database)} (fails : E s) :
    Contract (· = s) (write f)
      (fun a t => ∃ db, t = { s with database := db } ∧ f s.database = .ok (a, db)) E := by
  rintro t rfl
  cases outcome : f t.database with
  | error e =>
      have run : write f t = (.error e, t) := by simp only [write, outcome]
      rw [run]
      refine ⟨fun a t heq => ?_, fun e t heq => ?_⟩
      · cases heq
      · cases heq
        exact fails
  | ok p =>
      have run : write f t = (.ok p.1, { t with database := p.2 }) := by simp only [write, outcome]
      rw [run]
      refine ⟨fun a t heq => ?_, fun e t heq => ?_⟩
      · cases heq
        exact ⟨_, rfl, rfl⟩
      · cases heq

theorem contract_clearCaches (db : Database) :
    Contract (· = { s with database := db }) clearCaches (fun _ t => t = s.written db) E := by
  rintro _ rfl
  refine ⟨fun a t heq => ?_, fun e t heq => ?_⟩
  · cases heq
    rfl
  · cases heq

end Action

end SeriesLang
