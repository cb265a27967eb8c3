import SeriesLang.Proofs.Query.Depth
import SeriesLang.Proofs.Query.Folded

/-! # Constants folded in place

What is left of an expression after its constants are folded makes the same requests, comes to the same
values and fails with the same errors at the same paths. Only an evaluation that the depth limit cuts may
fare better, because an application that is folded takes no level any more.
-/

namespace SeriesLang

variable {α : Type} {R : Expr → Expr → Prop}

/-- Computations that make the same requests, for values of related expressions, and fail with the same
    errors. -/
inductive Body.Mirrors (R : Expr → Expr → Prop) : Body α → Body α → Prop
  | done (a : α) : Body.Mirrors R (.done a) (.done a)
  | fail (e : Error) : Body.Mirrors R (.fail e) (.fail e)
  | eval {context e e' slot next next'} (related : R e e')
      (rest : ∀ v, Body.Mirrors R (next v) (next' v)) :
      Body.Mirrors R (.eval context e slot next) (.eval context e' slot next')
  | fetch {context name next next'} (rest : ∀ s, Body.Mirrors R (next s) (next' s)) :
      Body.Mirrors R (.fetch context name next) (.fetch context name next')

theorem Body.Parallel.mirrors {b b' : Body α} (h : b.Parallel ⟨Eq, R, Eq⟩ b') : b.Mirrors R b' := by
  induction h with
  | done a => exact .done a
  | fail errors =>
      cases errors
      exact .fail _
  | eval contexts values _ ih =>
      cases contexts
      exact .eval values ih

namespace Expr

/-- What is left of an expression: each literal stood in its place before, or it stands for an application
    and is no infinite float and no NaN. -/
inductive Reduces : Expr → Expr → Prop
  | literal (l : Literal) : Reduces (.literal l) (.literal l)
  | symbol (name : String) : Reduces (.symbol name) (.symbol name)
  | call {op args args' kwargs kwargs'} (positional : List.Forall₂ Reduces args args')
      (names : kwargs.map Prod.fst = kwargs'.map Prod.fst)
      (values : List.Forall₂ Reduces (kwargs.map Prod.snd) (kwargs'.map Prod.snd)) :
      Reduces (.call ⟨op, args, kwargs⟩) (.call ⟨op, args', kwargs'⟩)
  | value {call l} (finite : ∀ v, l = .float v → v.isFinite = true) : Reduces (.call call) (.literal l)

theorem foldPair?_finite {op : String} {a b e : Expr} (h : foldPair? op a b = some e) :
    ∃ l, e = .literal l ∧ ∀ v, l = .float v → v.isFinite = true := by
  unfold foldPair? at h
  dsimp only at h
  split at h
  · cases h
    exact ⟨_, rfl, fun _ h => nomatch h⟩
  · split at h
    · obtain ⟨z, floats, rfl⟩ := Option.map_eq_some_iff.1 h
      refine ⟨_, rfl, fun v same => ?_⟩
      cases same
      exact (Option.filter_eq_some_iff.1 floats).2
    · cases h

/-- Constants that are folded are finite. -/
theorem reduces_foldConstants (e : Expr) : e.Reduces e.foldConstants := by
  have folded : Folded Reduces :=
    { literal := .literal
      symbol := .symbol
      call := fun {call call'} similar => by
        obtain ⟨op, args, kwargs⟩ := call
        obtain ⟨_, args', kwargs'⟩ := call'
        obtain ⟨rfl, positional, keywords⟩ := similar
        refine .call positional (Application.names_eq keywords) ?_
        rw [List.forall₂_map_left_iff, List.forall₂_map_right_iff]
        exact keywords.imp fun _ _ pair => pair.2
      pair := fun inside folded => by
        obtain ⟨l, rfl, finite⟩ := foldPair?_finite folded
        cases inside with
        | call => exact .value finite }
  exact folded.foldConstants e

end Expr

namespace Operator

variable {call call' : Call} {context : Context} {path : Path}

/-- The built-in operators that receive their application look at nothing in it but the operator and which
    arguments there are. -/
theorem mirrors_tree {o : Operator} (known : o = series ∨ o = constant ∨ o = today ∨
    o = timeShifted ∨ o = asOf ∨ ∃ run, o.Plain run) {run : Call → Context → Path → Body Value}
    (tree : o.implementation = .tree run) (h : call.Similar R call') :
    (run call context path).Mirrors R (run call' context path) := by
  rcases known with rfl | rfl | rfl | rfl | rfl | ⟨run', plain⟩
  · cases tree
  · cases tree
  · cases tree
  · cases tree
    exact (parallel_shiftSeries h (.refl (fun _ => rfl) path) rfl rfl fun _ => rfl).mirrors
  · cases tree
    exact (parallel_readAsOf h (.refl (fun _ => rfl) path) rfl fun _ => rfl).mirrors
  · cases plain.implementation.symm.trans tree

end Operator

open Query (CutOf)

namespace Env

variable {env : Env} {catalog : Catalog} {eval : Evaluator} {context : Context} {path : Path} {n : Nat}

/-- An expression may stand for another one: wherever the other one stood, its evaluation goes as before, or
    the evaluation before was cut. -/
def Replaceable (catalog : Catalog) (eval : Evaluator) (e e' : Expr) : Prop :=
  ∀ context path slot, CutOf catalog (eval context path slot e) (eval context path slot e')

theorem Replaceable.refl (e : Expr) : Replaceable catalog eval e e :=
  fun _ _ _ => .refl _

theorem Replaceable.trans {e e' e'' : Expr} (h : Replaceable catalog eval e e')
    (h' : Replaceable catalog eval e' e'') : Replaceable catalog eval e e'' :=
  fun context path slot => (h context path slot).trans (h' context path slot)

theorem cutOf_answer {b b' : Body α} (h : b.Mirrors (Replaceable catalog eval) b') :
    CutOf catalog (env.answer eval path b) (env.answer eval path b') := by
  induction h with
  | done a => exact .refl _
  | fail e => exact .refl _
  | eval related _ ih => exact (related ..).bind ih
  | fetch _ ih => exact (CutOf.refl _).bind ih

theorem cutOf_evalArgs {es es' : List Expr} (h : List.Forall₂ (Replaceable catalog eval) es es')
    (index : Nat) :
    CutOf catalog (evalArgs eval context path index es) (evalArgs eval context path index es') := by
  induction h generalizing index with
  | nil => exact .refl _
  | cons first _ ih => exact (first ..).bind fun _ => (ih _).bind fun _ => .refl _

theorem cutOf_evalKwargs {es es' : List (String × Expr)}
    (h : List.Forall₂ (fun p q => p.1 = q.1 ∧ Replaceable catalog eval p.2 q.2) es es') :
    CutOf catalog (evalKwargs eval context path es) (evalKwargs eval context path es') := by
  induction h with
  | nil => exact .refl _
  | @cons p q es es' first _ ih =>
      obtain ⟨name, e⟩ := p
      obtain ⟨_, e'⟩ := q
      obtain ⟨rfl, first⟩ := first
      exact (first ..).bind fun _ => ih.bind fun _ => .refl _

/-- An application goes as before when its arguments are replaced. -/
theorem cutOf_evalCall (builtin : env.registry = .builtin) {call call' : Call}
    (h : call.Similar (Replaceable catalog eval) call') :
    CutOf catalog (env.evalCall eval context path call) (env.evalCall eval context path call') := by
  unfold evalCall Signature.checkCall
  rw [← h.op, ← h.args.length_eq, ← Application.names_eq h.kwargs]
  refine (CutOf.refl _).bind fun _ => ?_
  cases found : env.registry.find call.op path with
  | error e => exact .refl _
  | ok o =>
      refine (CutOf.refl (Query.ofExcept (o.signature.checkShape ..))).bind fun _ => ?_
      cases implementation : o.implementation with
      | tree run =>
          have known := (operator_cases builtin (Registry.get?_of_find found)).2
          exact cutOf_answer (Operator.mirrors_tree known implementation h)
      | values run =>
          exact (cutOf_evalArgs h.args 0).bind fun _ => (cutOf_evalKwargs h.kwargs).bind fun _ => .refl _

variable {x y : Literal} {op : String}

theorem evalAt_literal (env : Env) (n : Nat) (context : Context) (path : Path) (slot : String) (l : Literal) :
    env.evalAt n context path slot (.literal l) = .done l.toValue := by
  cases n <;> rfl

/-- An operator with two parameters that take numbers receives two numbers as they are. -/
theorem run_evalCall_numbers {o : Operator} {p q : Param} {run : Arguments → Except Error Value}
    (idle : env.interrupt = none) (found : env.registry.get? op = some o)
    (shape : o.signature = { positional := [p, q] })
    (required : p.default = none ∧ q.default = none)
    (types : (p.type = .number ∨ p.type = .numberOrSeries) ∧
      (q.type = .number ∨ q.type = .numberOrSeries))
    (implementation : o.implementation = .values fun args => .ofExcept (run args))
    (hx : x.Numeric) (hy : y.Numeric) :
    (env.evalCall (env.evalAt n) context path ⟨op, [.literal x, .literal y], []⟩).run catalog =
      run { op, path, positional := [x.toValue, y.toValue], keywords := [],
            context := if o.wantsContext then some context else none } := by
  have clear : env.checkpoint path = .ok () := by rw [checkpoint, idle]
  have known : env.registry.find op path = .ok o := by rw [Registry.find, found]
  have fits : o.signature.checkShape op path 2 [] = .ok () := by
    simp [shape, Signature.checkShape, Signature.requiredCount, required]
  have bound : o.signature.bind op path [x.toValue, y.toValue] [] =
      .ok ⟨[x.toValue, y.toValue], []⟩ := by
    rw [Signature.bind, List.length_cons, List.length_singleton, List.map_nil, fits, shape]
    simp only [Signature.bindPositional, Signature.bindKeywords,
      checkValue_number required.1 types.1 hx, checkValue_number required.2 types.2 hy]
    rfl
  have first := evalAt_literal env n context path (toString 0) x
  have second := evalAt_literal env n context path (toString (0 + 1)) y
  refine (Query.run_ofExcept_bind clear _).trans ((Query.run_ofExcept_bind known _).trans
    ((Query.run_ofExcept_bind fits _).trans ?_))
  simp only [implementation, evalArgs, first, second, evalKwargs]
  exact (Query.run_ofExcept_bind bound _).trans (run_answer_ofExcept ..)

/-- A sum, product or quotient of two numbers comes to its value. -/
theorem run_evalCall_makes (builtin : env.registry = .builtin) (idle : env.interrupt = none)
    (hx : x.Numeric) (hy : y.Numeric) {v : Value} (made : Operator.Makes x.toValue y.toValue op v) :
    (env.evalCall (env.evalAt n) context path ⟨op, [.literal x, .literal y], []⟩).run catalog = .ok v := by
  cases made with
  | sum =>
      have known := Registry.builtin_get?_of_mem (o := Operator.plus) (by simp [Operator.builtins])
      exact run_evalCall_numbers idle (builtin ▸ known) rfl ⟨rfl, rfl⟩ ⟨.inl rfl, .inr rfl⟩ rfl hx hy
  | product =>
      have known := Registry.builtin_get?_of_mem (o := Operator.times) (by simp [Operator.builtins])
      exact run_evalCall_numbers idle (builtin ▸ known) rfl ⟨rfl, rfl⟩ ⟨.inl rfl, .inr rfl⟩ rfl hx hy
  | @quotient d number nonzero =>
      have known := Registry.builtin_get?_of_mem (o := Operator.divide) (by simp [Operator.builtins])
      refine (run_evalCall_numbers idle (builtin ▸ known) rfl ⟨rfl, rfl⟩ ⟨.inr rfl, .inl rfl⟩ rfl
        hx hy).trans ?_
      simp only [Arguments.numberAt, Arguments.positionalAt, List.getD_cons_succ, List.getD_cons_zero,
        number]
      exact if_neg (Bool.eq_false_iff.1 nonzero)

theorem replaceable_foldPair? (builtin : env.registry = .builtin) (idle : env.interrupt = none)
    {a b e : Expr} (folded : Expr.foldPair? op a b = some e) (n : Nat) :
    Replaceable catalog (env.evalAt n) (.call ⟨op, [a, b], []⟩) e := by
  obtain ⟨x, y, l, rfl, rfl, rfl, hx, hy, made⟩ := Expr.foldPair?_makes folded
  intro context path slot
  cases n with
  | zero => exact .inr ⟨_, _, rfl⟩
  | succ n => exact .inl (run_evalCall_makes builtin idle hx hy made).symm

theorem Replaceable.of_similar (builtin : env.registry = .builtin) {call call' : Call}
    (h : call.Similar (fun e e' => ∀ n, Replaceable catalog (env.evalAt n) e e') call') (n : Nat) :
    Replaceable catalog (env.evalAt n) (.call call) (.call call') := by
  intro context path slot
  cases n with
  | zero => exact .inr ⟨_, _, rfl⟩
  | succ n =>
      have inside : CutOf catalog (env.evalCall (env.evalAt n) context (path.child slot call.op) call)
          (env.evalCall (env.evalAt n) context (path.child slot call.op) call') :=
        cutOf_evalCall builtin (h.imp fun _ _ _ replaceable => replaceable n)
      simp only [evalAt]
      rwa [← h.op]

/-- What is left of an expression may stand for it. -/
theorem replaceable_foldConstants (builtin : env.registry = .builtin) (idle : env.interrupt = none)
    (e : Expr) (n : Nat) : Replaceable catalog (env.evalAt n) e e.foldConstants := by
  have folded : Expr.Folded fun e e' => ∀ n, Replaceable catalog (env.evalAt n) e e' :=
    { literal := fun l _ => .refl _
      symbol := fun name _ => .refl _
      call := fun similar n => .of_similar builtin similar n
      pair := fun inside folded n => (inside n).trans (replaceable_foldPair? builtin idle folded n) }
  exact folded.foldConstants e n

/-- To fold the constants of an expression changes no value and no error, unless the evaluation was cut by the
    depth limit, and every float that is put in the place of an application is finite. -/
theorem evaluate_foldConstants (e : Expr) :
    (∀ (env : Env) (catalog : Catalog) (context : Context),
      env.registry = .builtin → env.interrupt = none →
      (∀ limit path, (env.evaluate context e).run catalog ≠ .error (.recursionLimit limit path)) →
      (env.evaluate context e.foldConstants).run catalog = (env.evaluate context e).run catalog) ∧
    e.Reduces e.foldConstants :=
  ⟨fun env _ context builtin idle uncut =>
    (replaceable_foldConstants builtin idle e env.maxDepth context .root "").run_eq uncut,
   Expr.reduces_foldConstants e⟩

/-- A sum that leaves the integers, times a series. -/
def overflowing : Expr :=
  .call ⟨"*", [.call ⟨"+", [.literal (.int 9223372036854775807), .literal (.int 1)], []⟩, .series "x"], []⟩

set_option maxRecDepth 4096 in
theorem evaluate_foldConstants_overflowing :
    let context : Context := { now := { seconds := 60, nanos := 0 } }
    let left := Expr.call ⟨"*", [.literal (.float 9223372036854775808), .series "x"], []⟩
    overflowing.foldConstants = left ∧
    (∃ v, (shallow.evaluate context overflowing).run looping = .ok v ∧
      (shallow.evaluate context left).run looping = .ok v) ∧
    overflowing.Reduces left := by
  intro context left
  have folds : overflowing.foldConstants = left := by decide +kernel
  have ends : ((shallow.evaluate context overflowing).run looping).toOption ≠ none := by
    decide +kernel
  obtain ⟨v, hv⟩ := Option.ne_none_iff_exists'.1 ends
  have hv := toOption_eq_some_iff.1 hv
  have same := (evaluate_foldConstants overflowing).1 shallow looping context rfl rfl
    fun limit path cut => by cases hv.symm.trans cut
  rw [folds] at same
  exact ⟨folds, ⟨v, hv, same.trans hv⟩, folds ▸ (evaluate_foldConstants overflowing).2⟩

end Env

end SeriesLang
