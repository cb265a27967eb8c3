import SeriesLang.Operator.Builtin
import SeriesLang.Proofs.Query.Run
import SeriesLang.Query.Evaluate

/-! # The depth limit

Every application that is evaluated inside of another one takes a level, be it an argument, a request of an
operator, or in a formula that is read by name. So no more calls are open at a time than there are levels,
whatever formulas read one another. More levels change nothing but evaluations that were cut.
-/

namespace SeriesLang

variable {α β : Type} {catalog : Catalog}

/-- A computation that goes as another one does, or is cut where it would go too deep. -/
def Query.CutOf (catalog : Catalog) (q q' : Query α) : Prop :=
  q'.run catalog = q.run catalog ∨ ∃ limit path, q.run catalog = .error (.recursionLimit limit path)

namespace Query.CutOf

theorem refl (q : Query α) : CutOf catalog q q :=
  .inl rfl

theorem trans {q q' q'' : Query α} (h : CutOf catalog q q') (h' : CutOf catalog q' q'') :
    CutOf catalog q q'' := by
  rcases h with same | cut
  · unfold CutOf at h' ⊢
    rwa [← same]
  · exact .inr cut

theorem bind {q q' : Query α} (h : CutOf catalog q q') {f f' : α → Query β}
    (rest : ∀ a, CutOf catalog (f a) (f' a)) : CutOf catalog (q.bind f) (q'.bind f') := by
  unfold CutOf
  rw [run_bind, run_bind]
  rcases h with same | ⟨limit, path, cut⟩
  · rw [same]
    cases q.run catalog with
    | error e => exact .inl rfl
    | ok a => exact rest a
  · rw [cut]
    exact .inr ⟨limit, path, rfl⟩

/-- What is no cut is what the other computation comes to. -/
theorem run_eq {q q' : Query α} (h : CutOf catalog q q')
    (uncut : ∀ limit path, q.run catalog ≠ .error (.recursionLimit limit path)) :
    q'.run catalog = q.run catalog := by
  rcases h with same | ⟨limit, path, cut⟩
  · exact same
  · exact absurd cut (uncut limit path)

end Query.CutOf

open Query (CutOf)

namespace Env

variable {env : Env} {eval eval' : Evaluator} {context : Context} {path : Path} {n m deeper : Nat}

/-- Every evaluation by the first way is one by the second way, or cut. -/
def Cuts (catalog : Catalog) (eval eval' : Evaluator) : Prop :=
  ∀ context path slot e, CutOf catalog (eval context path slot e) (eval' context path slot e)

theorem Cuts.args (h : Cuts catalog eval eval') (index : Nat) (es : List Expr) :
    CutOf catalog (evalArgs eval context path index es) (evalArgs eval' context path index es) := by
  induction es generalizing index with
  | nil => exact .refl _
  | cons e es ih => exact (h _ _ _ e).bind fun _ => (ih _).bind fun _ => .refl _

theorem Cuts.kwargs (h : Cuts catalog eval eval') (es : List (String × Expr)) :
    CutOf catalog (evalKwargs eval context path es) (evalKwargs eval' context path es) := by
  induction es with
  | nil => exact .refl _
  | cons p es ih => exact (h _ _ _ p.2).bind fun _ => ih.bind fun _ => .refl _

theorem Cuts.fetch (h : Cuts catalog eval eval') (name : String) :
    CutOf catalog (env.fetch eval context path name)
      ({ env with maxDepth := deeper }.fetch eval' context path name) := by
  refine (CutOf.refl (Query.ofExcept (env.checkpoint path))).bind fun _ => ?_
  dsimp only
  cases Sorted.get? name env.leaves with
  | some s => exact .refl _
  | none =>
      refine (CutOf.refl (Query.formula name)).bind fun tree => ?_
      cases tree with
      | none => exact .refl _
      | some tree => exact (h _ _ _ tree).bind fun _ => .refl _

theorem Cuts.answer (h : Cuts catalog eval eval') (b : Body α) :
    CutOf catalog (env.answer eval path b) ({ env with maxDepth := deeper }.answer eval' path b) := by
  induction b with
  | done a => exact .refl _
  | fail e => exact .refl _
  | eval context e slot next ih => exact (h _ _ _ e).bind ih
  | fetch context name next ih => exact (h.fetch name).bind ih

theorem Cuts.call (h : Cuts catalog eval eval') (call : Call) :
    CutOf catalog (env.evalCall eval context path call)
      ({ env with maxDepth := deeper }.evalCall eval' context path call) := by
  refine (CutOf.refl (Query.ofExcept (env.checkpoint path))).bind fun _ =>
    (CutOf.refl (Query.ofExcept (env.registry.find call.op path))).bind fun o =>
      (CutOf.refl (Query.ofExcept (o.signature.checkCall call path))).bind fun _ => ?_
  cases o.implementation with
  | tree run => exact h.answer _
  | values run =>
      exact (h.args 0 call.args).bind fun positional => (h.kwargs call.kwargs).bind fun keywords =>
        (CutOf.refl (Query.ofExcept (o.signature.bind call.op path positional keywords))).bind
          fun _ => h.answer _

/-- An evaluation with fewer levels is cut from one with more. -/
theorem cuts_evalAt (levels : n ≤ m) :
    Cuts catalog (env.evalAt n) ({ env with maxDepth := deeper }.evalAt m) := by
  induction n generalizing m with
  | zero =>
      intro context path slot e
      cases e with
      | literal l => cases m <;> exact .refl _
      | symbol name => cases m <;> exact .refl _
      | call call => exact .inr ⟨_, _, rfl⟩
  | succ n ih =>
      obtain ⟨m, rfl⟩ : ∃ k, m = k + 1 := ⟨m - 1, by omega⟩
      intro context path slot e
      cases e with
      | literal l => exact .refl _
      | symbol name => exact .refl _
      | call call => exact (ih (by omega)).call call

/-- A call that has been entered: an application, in its context and at its path. -/
structure Frame where
  context : Context
  path : Path
  call : Expr
deriving DecidableEq

/-- Evaluation under a watch. Each time an application is entered the watch is shown all calls that are open,
    the last one first, and may stop the evaluation there. -/
def watchAt (env : Env) (watch : List Frame → Option Error) : Nat → List Frame → Evaluator
  | _, _, _, _, _, .literal l => .done l.toValue
  | _, _, _, _, _, .symbol name => .done (.str name)
  | 0, _, _, parent, slot, .call call => .fail (.recursionLimit env.maxDepth (parent.child slot call.op))
  | levels + 1, opened, context, parent, slot, .call call =>
    let path := parent.child slot call.op
    let opened := ⟨context, path, .call call⟩ :: opened
    match watch opened with
    | some e => .fail e
    | none => env.evalCall (watchAt env watch levels opened) context path call

/-- The calls of a stack are open at some moment of an evaluation: whatever goes wrong as soon as they are,
    the evaluation fails with it. -/
def Stacks (env : Env) (catalog : Catalog) (context : Context) (e : Expr) (stack : List Frame) : Prop :=
  ∀ err, (env.watchAt (fun opened => if opened = stack then some err else none) env.maxDepth [] context
    .root "" e).run catalog = .error err

/-- A watch that never stops an evaluation changes nothing. -/
theorem watchAt_idle (env : Env) (n : Nat) (opened : List Frame) :
    env.watchAt (fun _ => none) n opened = env.evalAt n := by
  induction n generalizing opened with
  | zero =>
      funext context path slot e
      cases e <;> rfl
  | succ n ih =>
      funext context path slot e
      cases e with
      | literal l => rfl
      | symbol name => rfl
      | call call => simp only [watchAt, evalAt, ih]

/-- No watch is shown more calls than there are levels. -/
theorem watchAt_congr (env : Env) {watch watch' : List Frame → Option Error} {n : Nat}
    {opened : List Frame}
    (same : ∀ stack, stack.length ≤ opened.length + n → watch stack = watch' stack) :
    env.watchAt watch n opened = env.watchAt watch' n opened := by
  induction n generalizing opened with
  | zero =>
      funext context path slot e
      cases e <;> rfl
  | succ n ih =>
      funext context path slot e
      cases e with
      | literal l => rfl
      | symbol name => rfl
      | call call =>
          simp only [watchAt]
          rw [same _ (by simp only [List.length_cons]; omega),
            ih fun stack short => same stack (by simp only [List.length_cons] at short; omega)]

/-- A stack of open calls is no longer than the depth limit. -/
theorem length_of_stacks {e : Expr} {stack : List Frame} (h : env.Stacks catalog context e stack) :
    stack.length ≤ env.maxDepth := by
  refine Nat.le_of_not_lt fun longer => ?_
  -- The watch is shown no stack that long, so the evaluation itself would fail with any error at all.
  have unseen : ∀ err, (env.evaluate context e).run catalog = .error err := by
    intro err
    rw [evaluate, ← watchAt_idle env env.maxDepth [], ← h err]
    refine congrArg (fun eval : Evaluator => (eval context .root "" e).run catalog)
      (watchAt_congr env fun stack' short => (if_neg fun same => ?_).symm)
    simp only [List.length_nil, Nat.zero_add] at short
    subst same
    omega
  cases (unseen .missingTable).symm.trans (unseen .malformedJson)

/-- No more calls than the depth limit says are open at any moment of an evaluation, and an evaluation that ends
    in anything but a cut ends in the same with every higher limit. Formulas may read one another in cycles. -/
theorem evaluate_within_depth (env : Env) (catalog : Catalog) (context : Context) (e : Expr) :
    (∀ stack, env.Stacks catalog context e stack → stack.length ≤ env.maxDepth) ∧
    ∀ deeper, env.maxDepth ≤ deeper →
      (∀ limit path, (env.evaluate context e).run catalog ≠ .error (.recursionLimit limit path)) →
      ({ env with maxDepth := deeper }.evaluate context e).run catalog =
        (env.evaluate context e).run catalog :=
  ⟨fun _ h => length_of_stacks h, fun _ levels uncut =>
    (cuts_evalAt levels context .root "" e).run_eq uncut⟩

/-- A store with one series, read with three levels. -/
def shallow : Env where
  registry := .builtin
  store := ({} : Store).insert "x" { seconds := 10, nanos := 0 } [({ seconds := 20, nanos := 0 }, 1)]
  maxDepth := 3

/-- A catalog with a formula that raises that series, and with one that reads itself. -/
def looping : Catalog :=
  fun name => .ok (if name = "f" then some (.call ⟨"+", [.literal (.int 1), .series "x"], []⟩)
    else if name = "loop" then some (.series "loop") else none)

set_option maxRecDepth 4096 in
theorem evaluate_within_depth_looping :
    let context : Context := { now := { seconds := 60, nanos := 0 } }
    let loop := Expr.series "loop"
    let stack : List Frame := [⟨context, ⟨"series/loop/series/loop/series"⟩, loop⟩,
      ⟨context, ⟨"series/loop/series"⟩, loop⟩, ⟨context, ⟨"series"⟩, loop⟩]
    shallow.Stacks looping context loop stack ∧ stack.length ≤ 3 ∧
    (∃ v, (shallow.evaluate context (.series "f")).run looping = .ok v) ∧
    ({ shallow with maxDepth := 9 }.evaluate context (.series "f")).run looping =
      (shallow.evaluate context (.series "f")).run looping := by
  intro context loop stack
  have opened : shallow.Stacks looping context loop stack := fun _ => by with_unfolding_all rfl
  have ends : ((shallow.evaluate context (.series "f")).run looping).toOption ≠ none := by
    decide +kernel
  obtain ⟨v, hv⟩ := Option.ne_none_iff_exists'.1 ends
  refine ⟨opened, (evaluate_within_depth shallow looping context loop).1 stack opened,
    ⟨v, toOption_eq_some_iff.1 hv⟩,
    (evaluate_within_depth shallow looping context (.series "f")).2 9 (by decide) fun limit path cut => ?_⟩
  cases (toOption_eq_some_iff.1 hv).symm.trans cut

end Env

end SeriesLang
