import SeriesLang.Engine.Rename
import SeriesLang.Proofs.Query.Run

/-! # What a query can come to

A query that may be answered anything still ends in one of its own results, or it fails with one of its own
errors. Behind a cache that is out of date nothing else is known of it.
-/

namespace SeriesLang

namespace Query

variable {α β : Type} {P : α → Prop} {Q : β → Prop} {F : Error → Prop}

/-- Whatever its look-ups give, what a query comes to satisfies `P`, and its own failures satisfy `F`. -/
def Ends (P : α → Prop) (F : Error → Prop) : Query α → Prop
  | .done a => P a
  | .fail e => F e
  | .lookup _ next => ∀ tree, (next tree).Ends P F

namespace Ends

theorem bind {q : Query α} {f : α → Query β} (h : q.Ends P F) (rest : ∀ a, P a → (f a).Ends Q F) :
    (q.bind f).Ends Q F := by
  induction q with
  | done a => exact rest a h
  | fail e => exact h
  | lookup name next ih => exact fun tree => ih tree (h tree)

theorem imp {P' : α → Prop} {q : Query α} (h : q.Ends P F) (weaker : ∀ a, P a → P' a) : q.Ends P' F := by
  induction q with
  | done a => exact weaker a h
  | fail e => exact h
  | lookup name next ih => exact fun tree => ih tree (h tree)

theorem mono {F' : Error → Prop} {q : Query α} (h : q.Ends P F) (weaker : ∀ e, F e → F' e) :
    q.Ends P F' := by
  induction q with
  | done a => exact h
  | fail e => exact weaker e h
  | lookup name next ih => exact fun tree => ih tree (h tree)

theorem formula (name : String) : (Query.formula name).Ends (fun _ => True) F :=
  fun _ => trivial

theorem ofExcept {r : Except Error α} (ok : ∀ a, r = .ok a → P a) (error : ∀ e, r = .error e → F e) :
    (Query.ofExcept r).Ends P F := by
  cases r with
  | ok a => exact ok a rfl
  | error e => exact error e rfl

theorem overlay {q : Query α} (h : q.Ends P F) (formulas : List (String × Expr)) :
    (q.overlay formulas).Ends P F := by
  induction q with
  | done a => exact h
  | fail e => exact h
  | lookup name next ih =>
      rw [Query.overlay]
      split
      · exact ih _ (h _)
      · exact fun tree => ih tree (h tree)

theorem foldOver {f : β → α → Query β} (h : ∀ b a, (f b a).Ends (fun _ => True) F) (b : β)
    (as : List α) : (Query.foldOver f b as).Ends (fun _ => True) F := by
  induction as generalizing b with
  | nil => trivial
  | cons a as ih => exact (h b a).bind (fun b _ => ih b)

theorem forEach {f : α → Query β} (h : ∀ a, (f a).Ends Q F) (as : List α) :
    (Query.forEach f as).Ends (fun bs => ∀ b ∈ bs, Q b) F := by
  induction as with
  | nil => exact nofun
  | cons a as ih =>
      exact (h a).bind (fun _ first => ih.bind (fun _ others => List.forall_mem_cons.2 ⟨first, others⟩))

/-- Against a catalog a query has one of its ends, unless a formula cannot be read. -/
theorem run {q : Query α} (h : q.Ends P F) (catalog : Catalog) :
    (∀ a, q.run catalog = .ok a → P a) ∧
      ∀ e, q.run catalog = .error e → F e ∨ ∃ name, catalog name = .error e := by
  induction q with
  | done a =>
      refine ⟨fun _ same => ?_, fun _ same => ?_⟩
      · cases same
        exact h
      · cases same
  | fail e =>
      refine ⟨fun _ same => ?_, fun _ same => ?_⟩
      · cases same
      · cases same
        exact .inl h
  | lookup name next ih =>
      unfold Query.run
      cases answer : catalog name with
      | ok tree => exact ih tree (h tree)
      | error e =>
          refine ⟨fun _ same => ?_, fun _ same => ?_⟩
          · cases same
          · cases same
            exact .inr ⟨name, answer⟩

/-- What is kept in the cache, right or wrong, only decides between the ends of the query. -/
theorem runCached {q : Query α} (h : q.Ends P F) (catalog : Catalog) (cache : FormulaCache) :
    (∀ a, (q.runCached catalog cache).1 = .ok a → P a) ∧
      ∀ e, (q.runCached catalog cache).1 = .error e → F e ∨ ∃ name, catalog name = .error e := by
  induction q generalizing cache with
  | done a =>
      refine ⟨fun _ same => ?_, fun _ same => ?_⟩
      · cases same
        exact h
      · cases same
  | fail e =>
      refine ⟨fun _ same => ?_, fun _ same => ?_⟩
      · cases same
      · cases same
        exact .inl h
  | lookup name next ih =>
      unfold Query.runCached Cache.getOrCompute
      cases cache.get? name with
      | mk found cache =>
          cases found with
          | some tree => exact ih tree (h tree) cache
          | none =>
              cases answer : catalog name with
              | ok tree => exact ih tree (h tree) _
              | error e =>
                  refine ⟨fun _ same => ?_, fun _ same => ?_⟩
                  · cases same
                  · cases same
                    exact .inr ⟨name, answer⟩

end Ends

end Query

/-- An error that does not tell of others who wrote to the database. -/
def Error.Own (e : Error) : Prop :=
  ∀ expected found, e ≠ .concurrentWrite expected found

/-- An error that a search for names comes to by itself. -/
inductive Error.OfSearch : Error → Prop
  | cycle (name : String) : OfSearch (.cyclicFormula name)
  | limit (most : Nat) (path : Path) : OfSearch (.recursionLimit most path)

theorem Error.OfSearch.own {e : Error} (h : e.OfSearch) : e.Own := by
  cases h <;> rintro _ _ ⟨⟩

/-- A formula that cannot be read tells of its text alone. -/
theorem Database.own_of_catalog {db : Database} {name : String} {e : Error}
    (failed : db.catalog name = .error e) : e.Own := by
  rintro expected found rfl
  unfold catalog at failed
  split at failed
  · rename_i row _
    unfold Expr.ofText at failed
    cases parsed : Expr.parse row.text <;> simp only [parsed] at failed <;> cases failed
  · cases failed

open Query (Ends)

variable {r : Registry} {store : Store} {F : Error → Prop}

namespace Dependencies

theorem ends_lookup (name : String) :
    (Dependency.lookup store name).Ends (fun _ => True) F := by
  refine (Ends.formula name).bind (fun tree _ => ?_)
  cases tree <;> trivial

theorem ends_direct (e : Expr) : (direct r store e).Ends (fun _ => True) F := by
  refine Ends.foldOver (fun _ name => ?_) _ _
  exact (ends_lookup name).bind (fun _ _ => trivial)

theorem ends_expand (room : Nat) (stack : List String) (found : Dependencies) (e : Expr) :
    (expand r store room stack found e).Ends (fun _ => True) Error.OfSearch := by
  induction room generalizing stack found e with
  | zero => exact .limit _ _
  | succ room ih =>
      refine (ends_direct e).bind (fun read _ => Ends.foldOver (fun found p => ?_) _ _)
      obtain ⟨name, dependency⟩ := p
      dsimp only
      split
      · exact .cycle _
      · split
        · refine (Ends.formula name).bind (fun tree _ => ?_)
          cases tree with
          | none => trivial
          | some tree => exact ih _ _ tree
        · trivial

theorem ends_rejectUnknown (found : Dependencies) :
    (Query.ofExcept found.rejectUnknown).Ends (fun _ => True) Error.Own := by
  refine .ofExcept (fun _ _ => trivial) (fun e failed => ?_)
  unfold rejectUnknown at failed
  split at failed
  · cases failed
  · cases failed
    rintro _ _ ⟨⟩

theorem ends_firstOf {α : Type} {find : String → Query (Option α)}
    (h : ∀ name, (find name).Ends (fun _ => True) F) (names : List String) :
    (firstOf find names).Ends (fun _ => True) F := by
  induction names with
  | nil => trivial
  | cons name names ih =>
      refine (h name).bind (fun found _ => ?_)
      cases found with
      | none => exact ih
      | some a => trivial

theorem ends_firstInfoAt (room : Nat) (e : Expr) :
    (firstInfoAt store room e).Ends (fun _ => True) Error.OfSearch := by
  induction room generalizing e with
  | zero => exact .limit _ _
  | succ room ih =>
      refine ends_firstOf (fun name => (Ends.formula name).bind (fun tree _ => ?_)) _
      cases tree with
      | none => trivial
      | some tree => exact ih tree

end Dependencies

namespace Registration

variable {name text : String} {e : Expr}

theorem ends_needs (name : String) (e : Expr) :
    (needs r store name e).Ends (fun _ => True) Error.OfSearch :=
  Ends.bind (Dependencies.ends_expand _ _ _ e) (fun _ _ => trivial)

theorem ends_dependentNeeds (name : String) :
    (dependentNeeds r store name).Ends (fun _ => True) Error.OfSearch := by
  refine (Ends.formula name).bind (fun tree _ => ?_)
  cases tree with
  | none => trivial
  | some tree => exact (ends_needs name tree).bind (fun _ _ => trivial)

/-- A write is for the formula that it was asked for, with metadata made of what was stored and given. -/
structure Planned (name : String) (stored given : Option Json) (w : FormulaWrite) : Prop where
  name : w.name = name
  metadata : ∃ derived, w.metadata = some (Registration.metadata stored derived given)

/-- A plan is for the formula that it was asked for, and no plan fails for what others write. -/
theorem ends_plan (options : RegisterOptions) (stored : Option Json) (dependents : List String) :
    (plan r store name text e options stored dependents).Ends
      (fun p => Planned name stored options.metadata p.1) Error.Own := by
  refine Ends.bind ((Dependencies.ends_expand _ _ _ e).mono fun _ h => h.own) (fun found _ => ?_)
  have rest : (Query.bind (Dependencies.firstInfo store e) fun derived =>
      Query.bind ((Query.forEach (dependentNeeds r store) dependents).overlay [(name, e)])
        fun refreshed => Query.done (
          { name, text, hash := e.contentHash
            metadata := some (metadata stored (derived.getD {}) options.metadata)
            needs := found.names : FormulaWrite }, refreshed.filterMap id)).Ends
      (fun p => Planned name stored options.metadata p.1) Error.Own :=
    ((Dependencies.ends_firstInfoAt _ e).mono fun _ h => h.own).bind (fun _ _ =>
      (((Ends.forEach ends_dependentNeeds dependents).overlay _).mono fun _ h => h.own).bind
        (fun _ _ => ⟨rfl, _, rfl⟩))
  split
  · exact (Dependencies.ends_rejectUnknown found).bind (fun _ _ => rest)
  · exact rest

end Registration

namespace Renaming

theorem ends_writeFor (texts : List (String × String)) (changed : List (String × Expr)) (name : String) :
    (writeFor r store texts changed name).Ends (fun w => ∀ w' ∈ w, w'.metadata = none) Error.OfSearch := by
  refine (Ends.formula name).bind (fun tree _ => ?_)
  cases tree with
  | none => exact nofun
  | some e =>
      refine (Registration.ends_needs name e).bind (fun _ _ w hw => ?_)
      cases hw
      rfl

/-- A renaming leaves the metadata of formulas alone, and only a search for names makes it fail. -/
theorem ends_plan {changed : List (String × Expr)} (texts : List (String × String)) (names : List String)
    (formulas : List (String × Expr)) :
    ((Query.forEach (writeFor r store texts changed) names).overlay formulas).Ends
      (fun ws => ∀ w ∈ ws.filterMap id, w.metadata = none) Error.OfSearch := by
  refine Ends.overlay ?_ formulas
  refine (Ends.forEach (ends_writeFor texts changed) names).imp fun ws untold w hw => ?_
  obtain ⟨found, mem, same⟩ := List.mem_filterMap.1 hw
  exact untold found mem w same

end Renaming

end SeriesLang
