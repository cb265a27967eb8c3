import SeriesLang.Proofs.Operator.Parallel
import SeriesLang.Proofs.Operator.Plain
import SeriesLang.Proofs.Query.Run
import SeriesLang.Query.Evaluate

/-! # What an evaluation has done

An evaluation that succeeds is taken apart: into the values of the arguments, how they were bound to
parameters, and what each kind of operator made of them. Paths, which only show in errors, are left out.
-/

namespace SeriesLang

theorem Registry.get?_of_find {r : Registry} {name : String} {path : Path} {o : Operator}
    (h : r.find name path = .ok o) : r.get? name = some o := by
  unfold find at h
  split at h
  · rename_i known
    cases h
    exact known
  · cases h

theorem Query.bind_assoc {α β γ : Type} (q : Query α) (f : α → Query β) (g : β → Query γ) :
    (q.bind f).bind g = q.bind (fun a => (f a).bind g) := by
  induction q with
  | done a => rfl
  | fail e => rfl
  | lookup name next ih => exact congrArg (Query.lookup name) (funext ih)

namespace Env

variable {env : Env} {catalog : Catalog} {levels n : Nat} {context : Context} {path : Path}

/-- With so many levels left, an expression evaluates to a value in a context. -/
def Yields (env : Env) (catalog : Catalog) (levels : Nat) (context : Context) (e : Expr) (v : Value) :
    Prop :=
  ∃ path slot, (env.evalAt levels context path slot e).run catalog = .ok v

theorem Yields.literal {l : Literal} {v : Value} (h : env.Yields catalog levels context (.literal l) v) :
    v = l.toValue := by
  obtain ⟨_, _, h⟩ := h
  cases levels <;> cases h <;> rfl

theorem Yields.symbol {name : String} {v : Value}
    (h : env.Yields catalog levels context (.symbol name) v) : v = .str name := by
  obtain ⟨_, _, h⟩ := h
  cases levels <;> cases h <;> rfl

/-- What is no application has one value, and no series. -/
theorem Yields.leaf {S : Series → Series → Prop} {env' : Env} {levels' : Nat} {context' : Context}
    {e : Expr} {v v' : Value} (leaf : e.call? = none) (h : env.Yields catalog levels context e v)
    (h' : env'.Yields catalog levels' context' e v') : Value.Related S v v' := by
  cases e with
  | literal l =>
      rw [h.literal, h'.literal]
      exact .scalar (by cases l <;> rfl)
  | symbol name =>
      rw [h.symbol, h'.symbol]
      exact .scalar rfl
  | call call => cases leaf

theorem answer_bind {α β : Type} (env : Env) (eval : Evaluator) (path : Path) (b : Body α)
    (f : α → Body β) : env.answer eval path (b.bind f) =
      (env.answer eval path b).bind (fun a => env.answer eval path (f a)) := by
  induction b with
  | done a => rfl
  | fail e => rfl
  | eval context e slot next ih =>
      simp only [Body.bind, answer, Query.bind_assoc]
      exact congrArg _ (funext ih)
  | fetch context name next ih =>
      simp only [Body.bind, answer, Query.bind_assoc]
      exact congrArg _ (funext ih)

theorem ok_of_answer_bind {α β : Type} {eval : Evaluator} {b : Body α} {f : α → Body β} {r : β}
    (h : (env.answer eval path (b.bind f)).run catalog = .ok r) :
    ∃ a, (env.answer eval path b).run catalog = .ok a ∧
      (env.answer eval path (f a)).run catalog = .ok r := by
  rw [answer_bind] at h
  exact Query.ok_of_run_bind h

theorem run_answer_bind_ok {α β : Type} {eval : Evaluator} {b : Body α} {f : α → Body β} {a : α}
    (h : (env.answer eval path b).run catalog = .ok a) :
    (env.answer eval path (b.bind f)).run catalog = (env.answer eval path (f a)).run catalog := by
  rw [answer_bind, Query.run_bind, h]
  rfl

@[simp] theorem run_answer_ofExcept {α : Type} (eval : Evaluator) (r : Except Error α) :
    (env.answer eval path (.ofExcept r)).run catalog = r := by
  cases r <;> rfl

theorem run_answer_value (eval : Evaluator) (context : Context) (e : Expr) (slot : String) :
    (env.answer eval path (Body.value context e slot)).run catalog =
      (eval context path slot e).run catalog := by
  show ((eval context path slot e).bind _).run catalog = _
  rw [Query.run_bind]
  cases (eval context path slot e).run catalog <;> rfl

theorem yields_of_answer {e : Expr} {slot : String} {v : Value}
    (h : (env.answer (env.evalAt n) path (Body.value context e slot)).run catalog = .ok v) :
    env.Yields catalog n context e v := by
  rw [run_answer_value] at h
  exact ⟨path, slot, h⟩

theorem evalArgs_ok {index : Nat} {es : List Expr} {vs : List Value}
    (h : (evalArgs (env.evalAt n) context path index es).run catalog = .ok vs) :
    List.Forall₂ (env.Yields catalog n context) es vs := by
  induction es generalizing index vs with
  | nil =>
      cases h
      exact .nil
  | cons e es ih =>
      obtain ⟨v, first, h⟩ := Query.ok_of_run_bind h
      obtain ⟨rest, others, h⟩ := Query.ok_of_run_bind h
      cases h
      exact .cons ⟨path, toString index, first⟩ (ih others)

theorem evalKwargs_ok {es : List (String × Expr)} {vs : List (String × Value)}
    (h : (evalKwargs (env.evalAt n) context path es).run catalog = .ok vs) :
    List.Forall₂ (fun p q => p.1 = q.1 ∧ env.Yields catalog n context p.2 q.2) es vs := by
  induction es generalizing vs with
  | nil =>
      cases h
      exact .nil
  | cons p es ih =>
      obtain ⟨name, e⟩ := p
      obtain ⟨v, first, h⟩ := Query.ok_of_run_bind h
      obtain ⟨rest, others, h⟩ := Query.ok_of_run_bind h
      cases h
      exact .cons ⟨rfl, path, name, first⟩ (ih others)

/-- The bound arguments that an operator receives for an application. -/
structure Gathers (env : Env) (catalog : Catalog) (n : Nat) (context : Context) (o : Operator)
    (call : Call) (args : Arguments) : Prop where
  sees : args.context = if o.wantsContext then some context else none
  bound : ∃ path positional keywords,
    List.Forall₂ (env.Yields catalog n context) call.args positional ∧
    List.Forall₂ (fun p q => p.1 = q.1 ∧ env.Yields catalog n context p.2 q.2) call.kwargs keywords ∧
    o.signature.bind call.op path positional keywords = .ok ⟨args.positional, args.keywords⟩

/-- Arguments whose values are related are bound to related ones. -/
theorem Gathers.related {S : Series → Series → Prop} {env' : Env} {n' : Nat} {context' : Context}
    {o : Operator} {call : Call} {args args' : Arguments} (h : env.Gathers catalog n context o call args)
    (h' : env'.Gathers catalog n' context' o call args') (defaults : o.signature.ScalarDefaults)
    (related : ∀ e ∈ call.arguments, ∀ v v', env.Yields catalog n context e v →
      env'.Yields catalog n' context' e v' → Value.Related S v v') : args.Related S args' := by
  obtain ⟨_, positional, keywords, hpositional, hkeywords, bound⟩ := h.bound
  obtain ⟨_, positional', keywords', hpositional', hkeywords', bound'⟩ := h'.bound
  have inside : ∀ p ∈ call.kwargs, p.2 ∈ call.arguments := fun p hp =>
    List.mem_append_right _ (List.mem_map_of_mem hp)
  have both := Signature.bind_related defaults
    (forall₂_of_common hpositional hpositional' fun e he _ _ =>
      related e (List.mem_append_left _ he) _ _)
    (forall₂_of_common hkeywords hkeywords' fun p hp _ _ first second =>
      ⟨first.1.symm.trans second.1, related p.2 (inside p hp) _ _ first.2 second.2⟩)
    bound bound'
  exact ⟨both.1, both.2⟩

theorem not_yields_zero {call : Call} {v : Value} : ¬ env.Yields catalog 0 context (.call call) v := by
  rintro ⟨parent, slot, h⟩
  cases h

/-- How an application comes to a value: its operator answers from the expressions in it, or from the values
    that these have, as they are bound to parameters. -/
inductive Applied (env : Env) (catalog : Catalog) (eval : Evaluator) (context : Context) (path : Path)
    (call : Call) (o : Operator) (v : Value) : Prop
  | tree {run} (implementation : o.implementation = .tree run)
      (answered : (env.answer eval path (run call context path)).run catalog = .ok v)
  | values {run positional keywords bound} (implementation : o.implementation = .values run)
      (hpositional : (evalArgs eval context path 0 call.args).run catalog = .ok positional)
      (hkeywords : (evalKwargs eval context path call.kwargs).run catalog = .ok keywords)
      (hbound : o.signature.bind call.op path positional keywords = .ok bound)
      (answered : (env.answer eval path (run
        { op := call.op, path, positional := bound.positional, keywords := bound.keywords,
          context := if o.wantsContext then some context else none })).run catalog = .ok v)

/-- An application has a value if its operator is known, is given what it takes, and answers. -/
theorem evalCall_ok_iff {eval : Evaluator} {call : Call} {v : Value} :
    (env.evalCall eval context path call).run catalog = .ok v ↔
      env.checkpoint path = .ok () ∧ ∃ o, env.registry.find call.op path = .ok o ∧
        o.signature.checkCall call path = .ok () ∧ env.Applied catalog eval context path call o v := by
  constructor
  · intro h
    obtain ⟨_, clear, h⟩ := Query.ok_of_run_bind h
    obtain ⟨o, found, h⟩ := Query.ok_of_run_bind h
    obtain ⟨_, shape, h⟩ := Query.ok_of_run_bind h
    rw [Query.run_ofExcept] at clear found shape
    refine ⟨clear, o, found, shape, ?_⟩
    cases implementation : o.implementation with
    | tree run =>
        simp only [implementation] at h
        exact .tree implementation h
    | values run =>
        simp only [implementation] at h
        obtain ⟨positional, hpositional, h⟩ := Query.ok_of_run_bind h
        obtain ⟨keywords, hkeywords, h⟩ := Query.ok_of_run_bind h
        obtain ⟨bound, hbound, h⟩ := Query.ok_of_run_bind h
        rw [Query.run_ofExcept] at hbound
        exact .values implementation hpositional hkeywords hbound h
  · rintro ⟨clear, o, found, shape, applied⟩
    refine (Query.run_ofExcept_bind clear _).trans ((Query.run_ofExcept_bind found _).trans
      ((Query.run_ofExcept_bind shape _).trans ?_))
    cases applied with
    | tree implementation answered =>
        simp only [implementation]
        exact answered
    | values implementation hpositional hkeywords hbound answered =>
        simp only [implementation]
        exact (Query.run_bind_ok hpositional).trans ((Query.run_bind_ok hkeywords).trans
          ((Query.run_ofExcept_bind hbound _).trans answered))

/-- An application is evaluated one level down, by the operator of its name. -/
theorem Yields.call {call : Call} {v : Value} (h : env.Yields catalog (n + 1) context (.call call) v) :
    ∃ path o, env.registry.get? call.op = some o ∧
      match o.implementation with
      | .tree run => (env.answer (env.evalAt n) path (run call context path)).run catalog = .ok v
      | .values run => ∃ args, env.Gathers catalog n context o call args ∧
          (env.answer (env.evalAt n) path (run args)).run catalog = .ok v := by
  obtain ⟨parent, slot, h⟩ := h
  obtain ⟨-, o, found, -, applied⟩ := evalCall_ok_iff.1 h
  refine ⟨parent.child slot call.op, o, Registry.get?_of_find found, ?_⟩
  cases applied with
  | tree implementation answered =>
      rw [implementation]
      exact answered
  | values implementation hpositional hkeywords hbound answered =>
      rw [implementation]
      exact ⟨_, ⟨rfl, _, _, _, evalArgs_ok hpositional, evalKwargs_ok hkeywords, hbound⟩, answered⟩

/-- Two evaluations have related values if those of an application do whenever those one level down do.
    What series are related to may depend on the contexts. -/
theorem Yields.relatedIn {S : Context → Context → Series → Series → Prop} {env' : Env} {levels' : Nat}
    {context' : Context} {Q : Context → Context → Expr → Prop}
    (step : ∀ {n n' context context' call v v'}, Q context context' (.call call) →
      (∀ {context context' e v v'}, Q context context' e → env.Yields catalog n context e v →
        env'.Yields catalog n' context' e v' → Value.Related (S context context') v v') →
      env.Yields catalog (n + 1) context (.call call) v →
      env'.Yields catalog (n' + 1) context' (.call call) v' → Value.Related (S context context') v v')
    {e : Expr} {v v' : Value} (hQ : Q context context' e) (h : env.Yields catalog levels context e v)
    (h' : env'.Yields catalog levels' context' e v') : Value.Related (S context context') v v' := by
  induction levels generalizing levels' context context' e v v' with
  | zero =>
      cases e with
      | literal l => exact h.leaf rfl h'
      | symbol name => exact h.leaf rfl h'
      | call call => exact absurd h not_yields_zero
  | succ n ih =>
      cases e with
      | literal l => exact h.leaf rfl h'
      | symbol name => exact h.leaf rfl h'
      | call call =>
          cases levels' with
          | zero => exact absurd h' not_yields_zero
          | succ n' => exact step hQ (fun hQ h h' => ih hQ h h') h h'

/-- So it is with a relation that is the same in all contexts. -/
theorem Yields.related {S : Series → Series → Prop} {env' : Env} {levels' : Nat} {context' : Context}
    {Q : Context → Context → Expr → Prop}
    (step : ∀ {n n' context context' call v v'}, Q context context' (.call call) →
      (∀ {context context' e v v'}, Q context context' e → env.Yields catalog n context e v →
        env'.Yields catalog n' context' e v' → Value.Related S v v') →
      env.Yields catalog (n + 1) context (.call call) v →
      env'.Yields catalog (n' + 1) context' (.call call) v' → Value.Related S v v')
    {e : Expr} {v v' : Value} (hQ : Q context context' e) (h : env.Yields catalog levels context e v)
    (h' : env'.Yields catalog levels' context' e v') : Value.Related S v v' :=
  Yields.relatedIn (S := fun _ _ => S) step hQ h h'

/-- How the series of a name was found. -/
inductive Fetches (env : Env) (catalog : Catalog) (n : Nat) (context : Context) (name : String) :
    Series → Prop
  | leaf {s} (given : Sorted.get? name env.leaves = some s) :
      Fetches env catalog n context name (s.restrict context.window)
  | stored {s} (free : Sorted.get? name env.leaves = none) (unnamed : catalog name = .ok none)
      (found : env.store.get? name context.window context.revision = some s) :
      Fetches env catalog n context name s
  | formula {tree s} (free : Sorted.get? name env.leaves = none)
      (named : catalog name = .ok (some tree)) (yields : env.Yields catalog n context tree (.series s)) :
      Fetches env catalog n context name (s.restrict context.window)

theorem fetch_ok {name : String} {s : Series}
    (h : (env.fetch (env.evalAt n) context path name).run catalog = .ok s) :
    env.Fetches catalog n context name s := by
  obtain ⟨_, -, h⟩ := Query.ok_of_run_bind h
  cases given : Sorted.get? name env.leaves with
  | some leaf =>
      simp only [given] at h
      cases h
      exact .leaf given
  | none =>
      simp only [given] at h
      obtain ⟨tree, named, h⟩ := Query.ok_of_run_bind h
      rw [Query.run_formula] at named
      cases tree with
      | none =>
          simp only [Query.run_ofExcept, primary] at h
          split at h
          · rename_i found
            cases h
            exact .stored given named found
          · cases h
      | some tree =>
          obtain ⟨v, yields, h⟩ := Query.ok_of_run_bind h
          cases v with
          | series s =>
              cases h
              exact .formula given named ⟨path, name, yields⟩
          | _ => cases h

end Env

end SeriesLang
