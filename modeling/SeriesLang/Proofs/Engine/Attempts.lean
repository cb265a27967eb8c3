import SeriesLang.Engine.Attempts
import SeriesLang.Proofs.Engine.Action
import SeriesLang.Proofs.Query.Ends

/-! # Registering while others write, and alone

An engine that is alone is never turned away, so it registers by one attempt. Where others write, a
registration that fails leaves the database as the others have made it.
-/

namespace SeriesLang

/-- What others make of the database at so many moments, from a first one on. -/
def Others.during (others : Others) (first count : Nat) (db : Database) : Database :=
  (List.range' first count).foldl (fun db i => others i db) db

theorem Others.during_add (others : Others) (first count more : Nat) (db : Database) :
    others.during first (count + more) db =
      others.during (first + count) more (others.during first count db) := by
  rw [during, ← List.range'_append_1, List.foldl_append]
  rfl

theorem Others.during_idle (first count : Nat) (db : Database) : idle.during first count db = db := by
  induction count generalizing first with
  | zero => rfl
  | succ count ih => exact ih (first + 1)

/-- A write that was planned in the epoch that it finds is not turned away for what others write. -/
theorem Database.own_of_writeFormula {db : Database} {w : FormulaWrite} {update : Bool}
    {refreshed : List (String × List String)} {error : Error}
    (h : db.writeFormula w update refreshed (some db.epoch) = .error error) : error.Own := by
  rcases error_of_bind h with moved | ⟨_, -, h⟩
  · rw [checkEpoch, if_pos rfl] at moved
    cases moved
  · split at h
    · cases h
      exact fun _ _ => nofun
    · cases h

namespace Action

variable {α β : Type}

/-- The step of a sequence that fails. -/
theorem fails_of_bind {x : Action α} {f : α → Action β} {error : Error} {s t : Session}
    (h : (x >>= f) s = (.error error, t)) :
    x s = (.error error, t) ∨ ∃ a u, x s = (.ok a, u) ∧ f a u = (.error error, t) := by
  rw [run_bind] at h
  cases hx : x s with
  | mk result u =>
      rw [hx] at h
      cases result with
      | ok a => exact .inr ⟨a, u, rfl, h⟩
      | error e =>
          cases h
          exact .inl rfl

theorem interrupt_idle (i : Nat) (f : Unit → Action α) :
    (interrupt (Others.idle i) >>= f) = f () :=
  funext fun _ => rfl

theorem write_fails {f : Database → Except Error (α × Database)} {error : Error} {s t : Session}
    (h : write f s = (.error error, t)) : f s.database = .error error ∧ t = s := by
  rw [write] at h
  cases written : f s.database with
  | ok p =>
      rw [written] at h
      cases h
  | error e =>
      rw [written] at h
      cases h
      exact ⟨rfl, rfl⟩

end Action

namespace Engine

open SeriesLang.Action

variable {others : Others} {name text : String} {e : Expr} {options : RegisterOptions} {s t : Session}
  {error : Error} {number : Nat}

/-- No plan fails for what others write, whatever the engine keeps. -/
theorem own_of_plan {r : Registry} {store : Store} {stored : Option Json} {dependents : List String}
    (h : query (Registration.plan r store name text e options stored dependents) s =
      (.error error, t)) : error.Own ∧ t.database = s.database := by
  have ends : (Registration.plan r store name text e options stored dependents).Ends
      (fun p => Registration.Planned name stored options.metadata p.1) Error.Own :=
    Registration.ends_plan options stored dependents
  refine ⟨?_, (congrArg (fun p => p.2.database) h).symm⟩
  rcases (ends.runCached s.database.catalog s.engine.trees).2 error (congrArg Prod.fst h) with
    own | ⟨other, failed⟩
  · exact own
  · exact Database.own_of_catalog failed

/-- Why an attempt fails: it comes to nothing before the second moment, or the write is not made. -/
theorem attempt_fails (h : attempt others number name text e options s = (.error error, t)) :
    (t.database = others.during (2 * number) 1 s.database ∧ error.Own) ∨
      (t.database = others.during (2 * number) 2 s.database ∧ ∃ w refreshed,
        t.database.writeFormula w options.update refreshed (some s.database.epoch) = .error error) := by
  unfold attempt at h
  simp only [run_bind, Action.sync, interrupt, Action.engine, Action.database] at h
  split at h
  · cases h
    exact .inl ⟨rfl, fun _ _ => nofun⟩
  rcases fails_of_bind h with unplanned | ⟨p, u, planned, h⟩
  · obtain ⟨own, left⟩ := own_of_plan unplanned
    exact .inl ⟨left, own⟩
  have before : u.database = others (2 * number) s.database :=
    (congrArg (fun p => p.2.database) planned).symm
  rcases fails_of_bind h with failed | ⟨_, v, moved, h⟩
  · cases failed
  cases moved
  rcases fails_of_bind h with turned | ⟨id, v, -, h⟩
  · obtain ⟨unwritten, rfl⟩ := write_fails turned
    refine .inr ⟨?_, p.1, p.2, unwritten⟩
    show others (2 * number + 1) u.database = _
    rw [before]
    rfl
  · rcases fails_of_bind h with failed | ⟨_, v, -, h⟩
    · cases failed
    · cases h

theorem attempts_fail {again : Nat}
    (h : attempts others number name text e options again s = (.error error, t)) :
    ∃ count, t.database = others.during (2 * number) count s.database := by
  induction again generalizing number s with
  | zero =>
      rcases attempt_fails h with ⟨left, -⟩ | ⟨left, -⟩
      · exact ⟨1, left⟩
      · exact ⟨2, left⟩
  | succ again ih =>
      rw [attempts, ifTurnedAway] at h
      split at h
      · -- Only a write is turned away, so both moments of this attempt are over.
        rename_i expected found u turned
        rcases attempt_fails turned with ⟨-, own⟩ | ⟨left, -⟩
        · exact absurd rfl (own expected found)
        · obtain ⟨count, last⟩ := ih h
          exact ⟨2 + count, by rw [last, left, Others.during_add]; rfl⟩
      · rcases attempt_fails h with ⟨left, -⟩ | ⟨left, -⟩
        · exact ⟨1, left⟩
        · exact ⟨2, left⟩

/-- A registration that fails while others write leaves the database as they have made it. -/
theorem registerAmid_fails (h : registerAmid others name text options s = (.error error, t)) :
    ∃ count, t.database = others.during 0 count s.database := by
  rcases fails_of_bind h with unread | ⟨e, u, read, h⟩
  · exact ⟨0, (congrArg (fun p => p.2.database) unread).symm⟩
  obtain ⟨-, rfl⟩ := Prod.mk.inj read
  rcases fails_of_bind h with failed | ⟨engine, u, found, h⟩
  · cases failed
  cases found
  rcases fails_of_bind h with unchecked | ⟨_, u, checked, h⟩
  · exact ⟨0, (congrArg (fun p => p.2.database) unchecked).symm⟩
  obtain ⟨-, rfl⟩ := Prod.mk.inj checked
  exact attempts_fail h

/-- Alone, an engine is never turned away. -/
theorem own_of_attempt (h : attempt .idle number name text e options s = (.error error, t)) :
    error.Own := by
  rcases attempt_fails h with ⟨-, own⟩ | ⟨left, w, refreshed, unwritten⟩
  · exact own
  · rw [Others.during_idle] at left
    rw [left] at unwritten
    exact Database.own_of_writeFormula unwritten

theorem attempts_idle (again : Nat) :
    attempts .idle number name text e options again = attempt .idle number name text e options := by
  induction again generalizing number with
  | zero => rfl
  | succ again ih =>
      funext s
      rw [attempts, ifTurnedAway]
      split
      · rename_i expected found t turned
        exact absurd rfl (own_of_attempt turned expected found)
      · rfl

/-- An engine that is alone registers by one attempt. -/
theorem registerAmid_idle (name text : String) (options : RegisterOptions) :
    registerAmid .idle name text options = register name text options := by
  unfold registerAmid register
  refine congrArg _ (funext fun e => ?_)
  refine congrArg _ (funext fun engine => ?_)
  refine congrArg _ (funext fun _ => ?_)
  rw [attempts_idle]
  unfold attempt
  simp only [interrupt_idle]

end Engine

end SeriesLang
