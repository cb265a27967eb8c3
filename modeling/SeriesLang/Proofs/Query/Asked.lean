import SeriesLang.Proofs.Query.Scalars

/-! # What an evaluation asks for

An evaluation looks up the names of the series that its expression and the formulas of those names read,
wherever in an application they stand, and no others. That holds of one that fails, too, up to there.
-/

namespace SeriesLang

variable {α β : Type} {catalog : Catalog} {E : Expr → Prop} {N M : String → Prop}

namespace Query

/-- The names that a computation looks up when it is run against a catalog, in order. -/
def asked (catalog : Catalog) : Query α → List String
  | .done _ => []
  | .fail _ => []
  | .lookup name next =>
    name :: match catalog name with
      | .ok tree => (next tree).asked catalog
      | .error _ => []

/-- A computation looks up names of a set. -/
def Asks (catalog : Catalog) (N : String → Prop) (q : Query α) : Prop :=
  ∀ name ∈ q.asked catalog, N name

theorem asks_done (a : α) : (done a).Asks catalog N :=
  fun _ h => nomatch h

theorem asks_fail (e : Error) : (fail e : Query α).Asks catalog N :=
  fun _ h => nomatch h

theorem asks_lookup_iff {name : String} {next : Option Expr → Query α} :
    (lookup name next).Asks catalog N ↔
      N name ∧ ∀ tree, catalog name = .ok tree → (next tree).Asks catalog N := by
  unfold Asks
  rw [asked, List.forall_mem_cons]
  refine and_congr_right fun _ => ?_
  cases catalog name <;> simp

theorem Asks.bind {q : Query α} (h : q.Asks catalog N) {f : α → Query β}
    (rest : ∀ a, q.run catalog = .ok a → (f a).Asks catalog N) : (q.bind f).Asks catalog N := by
  induction q with
  | done a => exact rest a rfl
  | fail e => exact asks_fail e
  | lookup name next ih =>
      obtain ⟨first, others⟩ := asks_lookup_iff.1 h
      refine asks_lookup_iff.2 ⟨first, fun tree answer => ?_⟩
      refine ih tree (others tree answer) (fun a ha => rest a ?_)
      rw [run, answer]
      exact ha

theorem asks_formula {name : String} (h : N name) : (formula name).Asks catalog N :=
  asks_lookup_iff.2 ⟨h, fun tree _ => asks_done tree⟩

theorem asks_ofExcept (r : Except Error α) : (ofExcept r).Asks catalog N := by
  cases r with
  | ok a => exact asks_done a
  | error e => exact asks_fail e

end Query

namespace Body

/-- Whatever it is answered, an operator asks for the values of some expressions and for series of some
    names only. -/
def Asks (E : Expr → Prop) (N : String → Prop) : Body α → Prop
  | .done _ => True
  | .fail _ => True
  | .eval _ e _ next => E e ∧ ∀ v, (next v).Asks E N
  | .fetch _ name next => N name ∧ ∀ s, (next s).Asks E N

theorem Asks.weaken {b : Body α} (h : b.Asks E N) {F : Expr → Prop} (values : ∀ e, E e → F e)
    (names : ∀ name, N name → M name) : b.Asks F M := by
  induction b with
  | done a => trivial
  | fail e => trivial
  | eval context e slot next ih => exact ⟨values e h.1, fun v => ih v (h.2 v)⟩
  | fetch context name next ih => exact ⟨names name h.1, fun s => ih s (h.2 s)⟩

theorem asks_ofExcept (r : Except Error α) : (ofExcept r).Asks E N := by
  cases r <;> trivial

theorem asks_ofExcept_bind {r : Except Error α} {f : α → Body β}
    (h : ∀ a, r = .ok a → (f a).Asks E N) : ((ofExcept r).bind f).Asks E N := by
  cases r with
  | ok a => exact h a rfl
  | error e => trivial

theorem Parallel.asks {b b' : Body α} (h : b.Parallel ⟨Eq, fun e _ => E e, fun _ _ => True⟩ b') :
    b.Asks E N := by
  induction h with
  | done a => trivial
  | fail => trivial
  | eval _ values _ ih => exact ⟨values, ih⟩

end Body

namespace Operator

theorem asks_readSeries (args : Arguments) :
    (readSeries args).Asks E (fun name => args.textAt 0 = .ok name) :=
  Body.asks_ofExcept_bind fun _ _ => Body.asks_ofExcept_bind fun _ text => ⟨text, fun _ => trivial⟩

theorem similar_arguments (call : Call) : call.Similar (fun e _ => e ∈ call.arguments) call :=
  (Application.Similar.refl (R := Eq) (fun _ => rfl) call).imp fun _ inside _ _ => inside

theorem asks_shiftSeries (call : Call) (context : Context) (path : Path) :
    (shiftSeries call context path).Asks (· ∈ call.arguments) N :=
  (parallel_shiftSeries (similar_arguments call) (.refl (fun _ => trivial) path) rfl rfl fun _ => rfl).asks

theorem asks_readAsOf (call : Call) (context : Context) (path : Path) :
    (readAsOf call context path).Asks (· ∈ call.arguments) N :=
  (parallel_readAsOf (similar_arguments call) (.refl (fun _ => trivial) path) rfl fun _ => rfl).asks

/-- The built-in operators ask for the values of arguments, and `series` for the series of its name. -/
theorem builtin_asks {o : Operator} (known : o = series ∨ o = constant ∨ o = today ∨
    o = timeShifted ∨ o = asOf ∨ ∃ run, o.Plain run) :
    match o.implementation with
    | .values run => ∀ args : Arguments, (run args).Asks (fun _ => False)
        (fun name => o = series ∧ args.textAt 0 = .ok name)
    | .tree run => ∀ (call : Call) (context : Context) (path : Path),
        (run call context path).Asks (· ∈ call.arguments) (fun _ => False) := by
  rcases known with rfl | rfl | rfl | rfl | rfl | ⟨run, plain⟩
  · exact fun args => (asks_readSeries args).weaken (fun _ h => h) (fun _ text => ⟨rfl, text⟩)
  · exact fun args => Body.asks_ofExcept (makeConstant args)
  · exact fun args => Body.asks_ofExcept (readToday args)
  · exact asks_shiftSeries
  · exact asks_readAsOf
  · rw [plain.implementation]
    exact fun args => Body.asks_ofExcept (run args)

end Operator

theorem Expr.mem_seriesNames_of_argument {call : Call} {e : Expr} (he : e ∈ call.arguments)
    {name : String} (h : name ∈ e.seriesNames) : name ∈ (Expr.call call).seriesNames := by
  obtain ⟨inner, hinner, reads⟩ := List.mem_filterMap.1 h
  exact List.mem_filterMap.2 ⟨inner, Expr.mem_calls_of_argument he hinner, reads⟩

theorem Expr.mem_seriesNames_self {call : Call} {name : String} (h : call.seriesName? = some name) :
    name ∈ (Expr.call call).seriesNames :=
  List.mem_filterMap.2 ⟨call, Expr.mem_calls_self call, h⟩

namespace Env

variable {env : Env} {eval : Evaluator} {context : Context} {path : Path} {n levels : Nat}

/-- What is asked for when the requests of an operator are answered. -/
theorem asks_answer (values : ∀ context slot e, E e → (eval context path slot e).Asks catalog M)
    (names : ∀ context name, N name → (env.fetch eval context path name).Asks catalog M)
    {b : Body α} (h : b.Asks E N) : (env.answer eval path b).Asks catalog M := by
  induction b with
  | done a => exact Query.asks_done a
  | fail e => exact Query.asks_fail e
  | eval context e slot next ih => exact (values context slot e h.1).bind fun v _ => ih v (h.2 v)
  | fetch context name next ih => exact (names context name h.1).bind fun s _ => ih s (h.2 s)

theorem asks_evalArgs {es : List Expr} (h : ∀ e ∈ es, ∀ slot,
    (eval context path slot e).Asks catalog N) (index : Nat) :
    (evalArgs eval context path index es).Asks catalog N := by
  induction es generalizing index with
  | nil => exact Query.asks_done _
  | cons e es ih =>
      refine (h e List.mem_cons_self _).bind fun v _ => ?_
      exact (ih (fun e he => h e (List.mem_cons_of_mem _ he)) _).bind fun vs _ => Query.asks_done _

theorem asks_evalKwargs {es : List (String × Expr)} (h : ∀ p ∈ es, ∀ slot,
    (eval context path slot p.2).Asks catalog N) : (evalKwargs eval context path es).Asks catalog N := by
  induction es with
  | nil => exact Query.asks_done _
  | cons p es ih =>
      refine (h p List.mem_cons_self _).bind fun v _ => ?_
      exact (ih (fun e he => h e (List.mem_cons_of_mem _ he))).bind fun vs _ => Query.asks_done _

/-- All that the formulas of a set of names read is in the set. -/
def ClosedUnder (catalog : Catalog) (N : String → Prop) : Prop :=
  ∀ name tree, N name → catalog name = .ok (some tree) → ∀ other ∈ tree.seriesNames, N other

theorem asks_fetch (closed : ClosedUnder catalog N)
    (below : ∀ context path slot e, (∀ name ∈ e.seriesNames, N name) →
      (eval context path slot e).Asks catalog N) (context : Context) (path : Path) {name : String}
    (h : N name) : (env.fetch eval context path name).Asks catalog N := by
  refine (Query.asks_ofExcept _).bind fun _ _ => ?_
  cases Sorted.get? name env.leaves with
  | some s => exact Query.asks_done _
  | none =>
      refine (Query.asks_formula h).bind fun tree answer => ?_
      rw [Query.run_formula] at answer
      cases tree with
      | none => exact Query.asks_ofExcept _
      | some tree =>
          refine (below context path name tree (closed name tree h answer)).bind fun v _ => ?_
          cases v with
          | series s => exact Query.asks_done _
          | _ => exact Query.asks_fail _

/-- An application asks for the names that it reads, here or in its arguments. -/
theorem asks_call (builtin : env.registry = .builtin) (closed : ClosedUnder catalog N)
    (below : ∀ context path slot e, (∀ name ∈ e.seriesNames, N name) →
      (env.evalAt n context path slot e).Asks catalog N) {call : Call}
    (h : ∀ name ∈ (Expr.call call).seriesNames, N name) :
    (env.evalCall (env.evalAt n) context path call).Asks catalog N := by
  have argument : ∀ e ∈ call.arguments, ∀ context path slot,
      (env.evalAt n context path slot e).Asks catalog N := fun e he context path slot =>
    below context path slot e fun name hname => h name (Expr.mem_seriesNames_of_argument he hname)
  refine (Query.asks_ofExcept _).bind fun _ _ => (Query.asks_ofExcept _).bind fun o found =>
    (Query.asks_ofExcept _).bind fun _ _ => ?_
  rw [Query.run_ofExcept] at found
  obtain ⟨named, known⟩ := operator_cases builtin (Registry.get?_of_find found)
  have requests := Operator.builtin_asks known
  cases implementation : o.implementation with
  | tree run =>
      simp only [implementation] at requests
      exact asks_answer (fun context slot e he => argument e he context path slot) (by simp)
        (requests call context path)
  | values run =>
      simp only [implementation] at requests
      refine (asks_evalArgs (fun e he slot => argument e (List.mem_append_left _ he) _ _ slot) 0).bind
        fun positional hpositional => ?_
      refine (asks_evalKwargs (fun p hp slot => argument p.2
        (List.mem_append_right _ (List.mem_map_of_mem hp)) _ _ slot)).bind fun keywords hkeywords => ?_
      refine (Query.asks_ofExcept _).bind fun bound hbound => ?_
      rw [Query.run_ofExcept] at hbound
      refine asks_answer (by simp) (fun context name reads => ?_) (requests _)
      obtain ⟨rfl, text⟩ := reads
      refine asks_fetch closed below context path (h name (Expr.mem_seriesNames_self ?_))
      exact Gathers.seriesName? builtin named.symm ⟨rfl, _, positional, keywords,
        evalArgs_ok hpositional, evalKwargs_ok hkeywords, hbound⟩ text

/-- An evaluation asks for names of a set that its expression reads names of and that is closed. -/
theorem asks_evalAt (builtin : env.registry = .builtin) (closed : ClosedUnder catalog N) (levels : Nat)
    (context : Context) (path : Path) (slot : String) (e : Expr) (h : ∀ name ∈ e.seriesNames, N name) :
    (env.evalAt levels context path slot e).Asks catalog N := by
  induction levels generalizing context path slot e with
  | zero =>
      cases e with
      | literal l => exact Query.asks_done _
      | symbol name => exact Query.asks_done _
      | call call => exact Query.asks_fail _
  | succ n ih =>
      cases e with
      | literal l => exact Query.asks_done _
      | symbol name => exact Query.asks_done _
      | call call => exact asks_call builtin closed ih h

end Env

end SeriesLang
