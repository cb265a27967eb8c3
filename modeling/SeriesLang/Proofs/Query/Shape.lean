import SeriesLang.Proofs.Operator.Faults
import SeriesLang.Proofs.Query.Coverage
import SeriesLang.Proofs.Query.Refinement

/-! # Shapes of applications

Whether all applications in an expression name an operator and fit it is checked without evaluating anything.
The check finds exactly what would be found out by an evaluation that gets to its end: no evaluation fails
over the shape of an application after the check, and none succeeds where the check fails, because every
operator evaluates all of its arguments.
-/

namespace SeriesLang

variable {α β : Type}

namespace Registry

variable {r : Registry}

/-- An application names an operator and fits it. -/
def Takes (r : Registry) (call : Call) : Prop :=
  ∃ o path, r.get? call.op = some o ∧ o.signature.checkCall call path = .ok ()

/-- All applications in an expression name operators and fit them. -/
def Accepts (r : Registry) (e : Expr) : Prop :=
  ∀ call ∈ e.calls, r.Takes call

/-- An application fits an operator wherever it stands. -/
theorem Takes.anywhere {call : Call} (h : r.Takes call) :
    ∃ o, r.get? call.op = some o ∧ ∀ path, o.signature.checkCall call path = .ok () := by
  obtain ⟨o, path, found, shape⟩ := h
  exact ⟨o, found, fun path' => (Signature.alike_checkShape call.op path path' ..).ok shape⟩

theorem find_eq_ok_iff {name : String} {path : Path} {o : Operator} :
    r.find name path = .ok o ↔ r.get? name = some o := by
  refine ⟨get?_of_find, fun h => ?_⟩
  rw [find, h]

theorem Accepts.self {call : Call} (h : r.Accepts (.call call)) : r.Takes call :=
  h call (Expr.mem_calls_self call)

theorem Accepts.argument {call : Call} (h : r.Accepts (.call call)) {e : Expr}
    (he : e ∈ call.arguments) : r.Accepts e :=
  fun inner hinner => h inner (Expr.mem_calls_of_argument he hinner)

theorem accepts_call {call : Call} (self : r.Takes call)
    (arguments : ∀ e ∈ call.arguments, r.Accepts e) : r.Accepts (.call call) := by
  obtain ⟨op, args, kwargs⟩ := call
  intro inner hinner
  simp only [Expr.calls, List.mem_cons, List.mem_append, Expr.mem_callsOfArgs,
    Expr.mem_callsOfKwargs] at hinner
  rcases hinner with rfl | ⟨e, he, hinner⟩ | ⟨p, hp, hinner⟩
  · exact self
  · exact arguments e (List.mem_append_left _ he) inner hinner
  · exact arguments p.2 (List.mem_append_right _ (List.mem_map_of_mem hp)) inner hinner

mutual

/-- The check of an expression passes if all applications in it fit their operators, and only then. -/
theorem checkAt_ok_iff (parent : Path) (slot : String) :
    (e : Expr) → (r.checkAt parent slot e = .ok () ↔ r.Accepts e)
  | .literal _ => iff_of_true rfl nofun
  | .symbol _ => iff_of_true rfl nofun
  | .call ⟨op, args, kwargs⟩ => by
    constructor
    · intro h
      obtain ⟨o, found, h⟩ := ok_of_bind h
      obtain ⟨_, shape, h⟩ := ok_of_bind h
      obtain ⟨_, positional, keywords⟩ := ok_of_bind h
      refine accepts_call ⟨o, _, get?_of_find found, shape⟩ fun e he => ?_
      rcases List.mem_append.1 he with he | he
      · exact (checkArgs_ok_iff _ _ args).1 positional e he
      · obtain ⟨p, hp, rfl⟩ := List.mem_map.1 he
        exact (checkKwargs_ok_iff _ kwargs).1 keywords p hp
    · intro h
      obtain ⟨o, found, shape⟩ := h.self.anywhere
      have positional := (checkArgs_ok_iff (parent.child slot op) 0 args).2
        fun e he => h.argument (List.mem_append_left _ he)
      have keywords := (checkKwargs_ok_iff (parent.child slot op) kwargs).2
        fun p hp => h.argument (List.mem_append_right _ (List.mem_map_of_mem hp))
      simp only [checkAt, find_eq_ok_iff.2 found, positional, keywords]
      show Except.bind (o.signature.checkCall ⟨op, args, kwargs⟩ _) _ = _
      rw [shape]
      rfl

theorem checkArgs_ok_iff (path : Path) (index : Nat) :
    (es : List Expr) → (r.checkArgs path index es = .ok () ↔ ∀ e ∈ es, r.Accepts e)
  | [] => iff_of_true rfl nofun
  | e :: rest => by
    rw [List.forall_mem_cons, ← checkAt_ok_iff path (toString index) e,
      ← checkArgs_ok_iff path (index + 1) rest]
    constructor
    · intro h
      obtain ⟨_, first, others⟩ := ok_of_bind h
      exact ⟨first, others⟩
    · rintro ⟨first, others⟩
      simp only [checkArgs, first, others]
      rfl

theorem checkKwargs_ok_iff (path : Path) :
    (es : List (String × Expr)) → (r.checkKwargs path es = .ok () ↔ ∀ p ∈ es, r.Accepts p.2)
  | [] => iff_of_true rfl nofun
  | (name, e) :: rest => by
    rw [List.forall_mem_cons, ← checkAt_ok_iff path name e, ← checkKwargs_ok_iff path rest]
    constructor
    · intro h
      obtain ⟨_, first, others⟩ := ok_of_bind h
      exact ⟨first, others⟩
    · rintro ⟨first, others⟩
      simp only [checkKwargs, first, others]
      rfl

end

theorem checkTree_ok_iff {e : Expr} : r.checkTree e = .ok () ↔ r.Accepts e :=
  checkAt_ok_iff .root "" e

end Registry

namespace Env

variable {env : Env} {catalog : Catalog} {eval : Evaluator} {context : Context} {path : Path} {n : Nat}
  {F : Error → Prop}

/-! ### Errors of checked expressions -/

theorem failsWithin_run_bind {q : Query α} {f : α → Query β} (h : FailsWithin F (q.run catalog))
    (rest : ∀ a, q.run catalog = .ok a → FailsWithin F ((f a).run catalog)) :
    FailsWithin F ((q.bind f).run catalog) := by
  rw [Query.run_bind]
  exact h.bind rest

theorem failsWithin_run_given {r : Except Error α} {a : α} (h : r = .ok a) {f : α → Query β}
    (rest : FailsWithin F ((f a).run catalog)) :
    FailsWithin F (((Query.ofExcept r).bind f).run catalog) := by
  rw [Query.run_ofExcept_bind h]
  exact rest

theorem failsWithin_evalArgs {es : List Expr} (h : ∀ e ∈ es, ∀ slot,
    FailsWithin F ((eval context path slot e).run catalog)) (index : Nat) :
    FailsWithin F ((evalArgs eval context path index es).run catalog) := by
  induction es generalizing index with
  | nil => exact .ok _
  | cons e es ih =>
      refine failsWithin_run_bind (h e List.mem_cons_self _) fun v _ => ?_
      exact failsWithin_run_bind (ih (fun e he => h e (List.mem_cons_of_mem _ he)) _) fun _ _ => .ok _

theorem failsWithin_evalKwargs {es : List (String × Expr)} (h : ∀ p ∈ es, ∀ slot,
    FailsWithin F ((eval context path slot p.2).run catalog)) :
    FailsWithin F ((evalKwargs eval context path es).run catalog) := by
  induction es with
  | nil => exact .ok _
  | cons p es ih =>
      refine failsWithin_run_bind (h p List.mem_cons_self _) fun v _ => ?_
      exact failsWithin_run_bind (ih fun p hp => h p (List.mem_cons_of_mem _ hp)) fun _ _ => .ok _

/-- What an operator fails with is an error of its own, or one of what it asks for. -/
theorem failsWithin_answer {E : Expr → Prop} {N : String → Prop}
    (values : ∀ context slot e, E e → FailsWithin F ((eval context path slot e).run catalog))
    (names : ∀ context name, FailsWithin F ((env.fetch eval context path name).run catalog))
    {b : Body α} (asks : b.Asks E N) (own : b.FailsWithin F) :
    FailsWithin F ((env.answer eval path b).run catalog) := by
  induction b with
  | done a => exact .ok a
  | fail e => exact .error own
  | eval context e slot next ih =>
      exact failsWithin_run_bind (values context slot e asks.1) fun v _ => ih v (asks.2 v) (own v)
  | fetch context name next ih =>
      exact failsWithin_run_bind (names context name) fun s _ => ih s (asks.2 s) (own s)

/-- An error over the shape of an application is one that a look-up in the catalog failed with. -/
def Foreign (catalog : Catalog) (err : Error) : Prop :=
  err.OfShape → ∃ name, catalog name = .error err

theorem foreign_of {err : Error} (h : ¬ err.OfShape) : Foreign catalog err :=
  fun shape => absurd shape h

theorem foreign_checkpoint (env : Env) (path : Path) :
    FailsWithin (Foreign catalog) (env.checkpoint path) := by
  unfold checkpoint
  split
  · exact .error (foreign_of not_false)
  · exact .error (foreign_of not_false)
  · exact .ok _

theorem foreign_fetch (formulas : ∀ context path slot name tree, catalog name = .ok (some tree) →
    FailsWithin (Foreign catalog) ((eval context path slot tree).run catalog)) (name : String) :
    FailsWithin (Foreign catalog) ((env.fetch eval context path name).run catalog) := by
  refine failsWithin_run_bind ?_ fun _ _ => ?_
  · rw [Query.run_ofExcept]
    exact foreign_checkpoint env path
  · dsimp only
    cases Sorted.get? name env.leaves with
    | some leaf => exact .ok _
    | none =>
        refine failsWithin_run_bind ⟨fun err failed _ => ⟨name, ?_⟩⟩ fun tree named => ?_
        · rwa [Query.run_formula] at failed
        · rw [Query.run_formula] at named
          cases tree with
          | none =>
              simp only [Query.run_ofExcept, primary]
              split
              · exact .ok _
              · exact .error (foreign_of not_false)
          | some tree =>
              refine failsWithin_run_bind (formulas _ _ _ name tree named) fun v _ => ?_
              cases v with
              | series s => exact .ok _
              | _ => exact .error (foreign_of not_false)

/-- An application that fits its operator does not fail over its shape. -/
theorem foreign_call (builtin : env.registry = .builtin)
    (below : ∀ context path slot e, env.registry.Accepts e →
      FailsWithin (Foreign catalog) ((env.evalAt n context path slot e).run catalog))
    (formulas : ∀ name tree, catalog name = .ok (some tree) → env.registry.Accepts tree) {call : Call}
    (h : env.registry.Accepts (.call call)) :
    FailsWithin (Foreign catalog) ((env.evalCall (env.evalAt n) context path call).run catalog) := by
  obtain ⟨o, found, shape⟩ := h.self.anywhere
  have known := (operator_cases builtin found).2
  have spares := (Operator.builtin_spares (Registry.builtin_get? (builtin ▸ found)).1).fails
  have asks := Operator.builtin_asks known
  have fetched : ∀ context name, FailsWithin (Foreign catalog)
      ((env.fetch (env.evalAt n) context path name).run catalog) := fun context name =>
    foreign_fetch (fun context path slot name tree named => below context path slot tree
      (formulas name tree named)) name
  refine failsWithin_run_bind ?_ fun _ _ =>
    failsWithin_run_given (Registry.find_eq_ok_iff.2 found) (failsWithin_run_given (shape path) ?_)
  · rw [Query.run_ofExcept]
    exact foreign_checkpoint env path
  · cases implementation : o.implementation with
    | tree run =>
        simp only [implementation] at spares asks ⊢
        exact failsWithin_answer (fun context slot e he => below context path slot e (h.argument he))
          fetched (asks ..) ((spares ..).weaken fun _ => foreign_of)
    | values run =>
        simp only [implementation] at spares asks ⊢
        refine failsWithin_run_bind (failsWithin_evalArgs (fun e he slot => below _ _ slot e
          (h.argument (List.mem_append_left _ he))) _) fun positional hpositional => ?_
        refine failsWithin_run_bind (failsWithin_evalKwargs (fun p hp slot => below _ _ slot p.2
          (h.argument (List.mem_append_right _ (List.mem_map_of_mem hp))))) fun keywords hkeywords => ?_
        -- The shape is checked once more with the values; these are as many, under the same names.
        have bound : o.signature.checkShape call.op path positional.length (keywords.map Prod.fst) =
            .ok () := by
          rw [← (evalArgs_ok hpositional).length_eq, ← Sorted.keys_of_forall₂ (evalKwargs_ok hkeywords)]
          exact shape path
        refine failsWithin_run_bind ?_ fun b _ => ?_
        · rw [Query.run_ofExcept]
          exact (Signature.sparing_bind bound).weaken fun _ => foreign_of
        · exact failsWithin_answer (fun _ _ _ none => none.elim) fetched (asks _)
            ((spares _).weaken fun _ => foreign_of)

/-- Where all formulas fit their operators, an expression that does so does not fail over a shape. -/
theorem foreign_evalAt (builtin : env.registry = .builtin)
    (formulas : ∀ name tree, catalog name = .ok (some tree) → env.registry.Accepts tree) (n : Nat)
    (context : Context) (path : Path) (slot : String) {e : Expr} (h : env.registry.Accepts e) :
    FailsWithin (Foreign catalog) ((env.evalAt n context path slot e).run catalog) := by
  induction n generalizing context path slot e with
  | zero =>
      cases e with
      | literal l => exact .ok _
      | symbol name => exact .ok _
      | call call => exact .error (foreign_of not_false)
  | succ n ih =>
      cases e with
      | literal l => exact .ok _
      | symbol name => exact .ok _
      | call call =>
          exact foreign_call builtin (fun context path slot e he => ih context path slot he) formulas h

/-! ### Values of unchecked expressions -/

theorem Counts.yields {call : Call} {name : String} {k : Int} {e : Expr}
    (h : env.Counts catalog n context call name k) (given : call.keyword? name = some e) :
    env.Yields catalog n context e (.int k) := by
  cases h with
  | absent absent => cases given.symm.trans absent
  | given given' yields =>
      cases given.symm.trans given'
      exact yields

/-- An operator on values is given those of all arguments. -/
theorem Gathers.yields {o : Operator} {call : Call} {args : Arguments}
    (h : env.Gathers catalog n context o call args) {e : Expr} (he : e ∈ call.arguments) :
    ∃ v, env.Yields catalog n context e v := by
  obtain ⟨_, positional, keywords, hpositional, hkeywords, -⟩ := h.bound
  rcases List.mem_append.1 he with he | he
  · obtain ⟨i, hi, rfl⟩ := List.mem_iff_getElem.1 he
    exact ⟨_, hpositional.get hi (hpositional.length_eq ▸ hi)⟩
  · obtain ⟨p, hp, rfl⟩ := List.mem_map.1 he
    obtain ⟨i, hi, rfl⟩ := List.mem_iff_getElem.1 hp
    exact ⟨_, (hkeywords.get hi (hkeywords.length_eq ▸ hi)).2⟩

/-- `time-shifted` looks at all that its signature lets it be given. -/
theorem Yields.arguments_timeShifted {call : Call} (ordered : Sorted.Ascending call.kwargs)
    (shape : Operator.timeShifted.signature.checkCall call path = .ok ()) {v : Value}
    (found : env.registry.get? call.op = some Operator.timeShifted)
    (h : env.Yields catalog (n + 1) context (.call call) v) {e : Expr} (he : e ∈ call.arguments) :
    ∃ context v, env.Yields catalog n context e v := by
  obtain ⟨weeks, days, hours, minutes, delta, e', s, hweeks, hdays, hhours, hminutes, -, first, yields, -⟩ :=
    h.timeShifted found
  obtain ⟨room, known⟩ := Signature.checkShape_ok shape
  rcases List.mem_append.1 he with he | he
  · have single : call.args.length ≤ 1 := room.resolve_right nofun
    obtain ⟨i, hi, rfl⟩ := List.mem_iff_getElem.1 he
    obtain rfl : i = 0 := by omega
    cases (List.getElem?_eq_getElem hi).symm.trans first
    exact ⟨_, _, yields⟩
  · obtain ⟨p, hp, rfl⟩ := List.mem_map.1 he
    have given : call.keyword? p.1 = some p.2 := Sorted.get?_of_mem ordered hp
    have name : p.1 = "weeks" ∨ p.1 = "days" ∨ p.1 = "hours" ∨ p.1 = "minutes" := by
      obtain ⟨param, hparam, same⟩ := known p.1 (List.mem_map_of_mem hp)
      rw [← same]
      simp only [Operator.timeShifted, Operator.ofTree, List.map_cons, List.map_nil, List.mem_cons,
        List.not_mem_nil, or_false] at hparam
      rcases hparam with rfl | rfl | rfl | rfl <;> simp
    rcases name with name | name | name | name
    · exact ⟨_, _, hweeks.yields (name ▸ given)⟩
    · exact ⟨_, _, hdays.yields (name ▸ given)⟩
    · exact ⟨_, _, hhours.yields (name ▸ given)⟩
    · exact ⟨_, _, hminutes.yields (name ▸ given)⟩

/-- So does `asof`. -/
theorem Yields.arguments_asOf {call : Call}
    (shape : Operator.asOf.signature.checkCall call path = .ok ()) {v : Value}
    (found : env.registry.get? call.op = some Operator.asOf)
    (h : env.Yields catalog (n + 1) context (.call call) v) {e : Expr} (he : e ∈ call.arguments) :
    ∃ context v, env.Yields catalog n context e v := by
  obtain ⟨_, _, _, _, _, first, dated, -, second, read, -⟩ := h.asOf found
  obtain ⟨room, known⟩ := Signature.checkShape_ok shape
  rcases List.mem_append.1 he with he | he
  · have two : call.args.length ≤ 2 := room.resolve_right nofun
    obtain ⟨i, hi, rfl⟩ := List.mem_iff_getElem.1 he
    obtain rfl | rfl : i = 0 ∨ i = 1 := by omega
    · cases (List.getElem?_eq_getElem hi).symm.trans first
      exact ⟨_, _, dated⟩
    · cases (List.getElem?_eq_getElem hi).symm.trans second
      exact ⟨_, _, read⟩
  · obtain ⟨p, hp, -⟩ := List.mem_map.1 he
    obtain ⟨param, hparam, -⟩ := known p.1 (List.mem_map_of_mem hp)
    cases hparam

/-- An application that succeeds has evaluated all of its arguments. -/
theorem Yields.arguments (builtin : env.registry = .builtin) {call : Call} {o : Operator}
    (ordered : Sorted.Ascending call.kwargs) (found : env.registry.get? call.op = some o)
    (shape : o.signature.checkCall call path = .ok ()) {v : Value}
    (h : env.Yields catalog (n + 1) context (.call call) v) {e : Expr} (he : e ∈ call.arguments) :
    ∃ context v, env.Yields catalog n context e v := by
  have gathered : ∀ run, o.implementation = .values run → ∃ context v, env.Yields catalog n context e v := by
    intro run implementation
    obtain ⟨_, _, known, h⟩ := h.call
    cases found.symm.trans known
    simp only [implementation] at h
    obtain ⟨args, gathers, -⟩ := h
    exact ⟨context, gathers.yields he⟩
  rcases (operator_cases builtin found).2 with rfl | rfl | rfl | rfl | rfl | ⟨run, plain⟩
  · exact gathered _ rfl
  · exact gathered _ rfl
  · exact gathered _ rfl
  · exact h.arguments_timeShifted ordered shape found he
  · exact h.arguments_asOf shape found he
  · exact gathered _ plain.implementation

/-- All applications in an expression that has a value name operators and fit them. -/
theorem Yields.accepts (builtin : env.registry = .builtin) {e : Expr} (ordered : e.Ordered) {v : Value}
    (h : env.Yields catalog n context e v) : env.registry.Accepts e := by
  induction n generalizing context e v with
  | zero =>
      cases e with
      | literal l => exact nofun
      | symbol name => exact nofun
      | call call => exact absurd h not_yields_zero
  | succ n ih =>
      cases e with
      | literal l => exact nofun
      | symbol name => exact nofun
      | call call =>
          have evaluated := h
          obtain ⟨parent, slot, run⟩ := evaluated
          obtain ⟨_, -, run⟩ := Query.ok_of_run_bind run
          obtain ⟨o, found, run⟩ := Query.ok_of_run_bind run
          obtain ⟨_, shape, run⟩ := Query.ok_of_run_bind run
          rw [Query.run_ofExcept] at found shape
          have found := Registry.get?_of_find found
          refine Registry.accepts_call ⟨o, _, found, shape⟩ fun e he => ?_
          obtain ⟨_, _, yields⟩ := h.arguments builtin ordered.self found shape he
          exact ih (ordered.argument he) yields

/-- The check before an evaluation and the evaluation agree. Where all formulas pass the check, an
    expression that passes does not fail over the shape of an application, unless a look-up in the catalog
    fails so; and an expression that has a value passes. -/
theorem evaluate_checked (builtin : env.registry = .builtin) (catalog : Catalog) (context : Context)
    (e : Expr) :
    ((∀ name tree, catalog name = .ok (some tree) → env.registry.checkTree tree = .ok ()) →
      env.registry.checkTree e = .ok () → ∀ err, (env.evaluate context e).run catalog = .error err →
        err.OfShape → ∃ name, catalog name = .error err) ∧
    (e.Ordered → ∀ v, (env.evaluate context e).run catalog = .ok v →
      env.registry.checkTree e = .ok ()) := by
  refine ⟨fun formulas passes => ?_, fun ordered v evaluated => ?_⟩
  · exact (foreign_evalAt builtin (fun name tree named =>
      Registry.checkTree_ok_iff.1 (formulas name tree named)) _ context .root ""
      (Registry.checkTree_ok_iff.1 passes)).fails
  · have yields : env.Yields catalog env.maxDepth context e v := ⟨.root, "", evaluated⟩
    exact Registry.checkTree_ok_iff.2 (yields.accepts builtin ordered)

theorem evaluate_checked_runningTotal :
    let context : Context := ⟨.all, some { seconds := 15, nanos := 0 }, { seconds := 16, nanos := 0 }⟩
    ∃ v err, (recorded.evaluate context runningTotal).run moving = .ok v ∧
      recorded.registry.checkTree runningTotal = .ok () ∧
      (recorded.evaluate context (.series "y")).run moving = .error err ∧ ¬ err.OfShape := by
  intro context
  obtain ⟨s, evaluated, -⟩ := evaluate_runningTotal
  have builtin : recorded.registry = .builtin := by simp only [recorded]
  have missing : ((recorded.evaluate context (.series "y")).run moving).toOption = none := by
    decide +kernel
  have tree : recorded.registry.checkTree
      (.call ⟨"time-shifted", [.series "x"], [("minutes", .literal (.int 1))]⟩) = .ok () :=
    toOption_eq_some_iff.1 (by decide +kernel)
  have formulas : ∀ name tree, moving name = .ok (some tree) → recorded.registry.checkTree tree = .ok () := by
    intro name other named
    have named := Except.ok.inj named
    split at named
    · cases named
      exact tree
    · cases named
  cases failed : (recorded.evaluate context (.series "y")).run moving with
  | ok v => cases failed ▸ missing
  | error err =>
      refine ⟨_, err, evaluated, (evaluate_checked builtin moving context runningTotal).2
        (by decide +kernel) _ evaluated, rfl, fun shape => ?_⟩
      obtain ⟨name, unreadable⟩ := (evaluate_checked builtin moving context (.series "y")).1 formulas
        (toOption_eq_some_iff.1 (by decide +kernel)) err failed shape
      cases unreadable

end Env

end SeriesLang
