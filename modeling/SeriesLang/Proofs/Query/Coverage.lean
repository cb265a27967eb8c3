import SeriesLang.Proofs.Expr.Rename
import SeriesLang.Proofs.Operator.Typing
import SeriesLang.Proofs.Query.Asked
import SeriesLang.Proofs.Query.Closure
import SeriesLang.Proofs.Query.Past
import SeriesLang.Proofs.Query.Revisions

/-! # What an evaluation depends on

The names that are found for an expression without evaluating it are all that a value of it depends on.
Some operators hide their arguments from that search; but these are bound to scalars, and a scalar is made
of no series, wherever in the expression it stands.
-/

namespace SeriesLang

/-- The keywords of every application come in order, each of them once. -/
def Expr.Ordered (e : Expr) : Prop :=
  ∀ call ∈ e.calls, Sorted.Ascending call.kwargs

instance (e : Expr) : Decidable e.Ordered :=
  inferInstanceAs (Decidable (∀ call ∈ e.calls, List.Pairwise (fun p q => p.1 < q.1) call.kwargs))

namespace Expr

/-- Expressions that are read from a text are of this kind. -/
theorem Readable.ordered {room : Nat} {e : Expr} (h : Readable room e) : e.Ordered := by
  induction h with
  | literal _ => exact fun call hcall => nomatch hcall
  | symbol _ => exact fun call hcall => nomatch hcall
  | @call room op args kwargs _ _ _ _ sorted args_ih kwargs_ih =>
      intro call hcall
      simp only [calls, List.mem_cons, List.mem_append, mem_callsOfArgs, mem_callsOfKwargs] at hcall
      rcases hcall with rfl | ⟨e, he, hcall⟩ | ⟨p, hp, hcall⟩
      · exact sorted
      · exact args_ih e he call hcall
      · exact kwargs_ih p hp call hcall

theorem Ordered.self {call : Call} (h : (Expr.call call).Ordered) : Sorted.Ascending call.kwargs :=
  h call (mem_calls_self call)

theorem Ordered.argument {call : Call} (h : (Expr.call call).Ordered) {e : Expr}
    (he : e ∈ call.arguments) : e.Ordered :=
  fun inner hinner => h inner (mem_calls_of_argument he hinner)

end Expr

/-- Keywords that are evaluated one by one keep their names. -/
theorem Sorted.keys_of_forall₂ {κ α β : Type} {P : α → β → Prop} {ps : List (κ × α)} {qs : List (κ × β)}
    (same : List.Forall₂ (fun p q => p.1 = q.1 ∧ P p.2 q.2) ps qs) : ps.map Prod.fst = qs.map Prod.fst := by
  rw [← List.forall₂_eq_eq_eq, List.forall₂_map_left_iff, List.forall₂_map_right_iff]
  exact same.imp fun _ _ both => both.1

/-- They stay in order, too. -/
theorem Sorted.Ascending.of_forall₂ {κ α β : Type} [LT κ] {P : α → β → Prop} {ps : List (κ × α)}
    {qs : List (κ × β)} (h : Ascending ps) (same : List.Forall₂ (fun p q => p.1 = q.1 ∧ P p.2 q.2) ps qs) :
    Ascending qs := by
  have ascends := List.pairwise_map.2 h
  rw [Sorted.keys_of_forall₂ same] at ascends
  exact List.pairwise_map.1 ascends

namespace Env

section Carried

variable {catalog catalog' : Catalog} {eval eval' : Evaluator} {context context' : Context} {path : Path}
  {Q : Expr → Value → Prop}

/-- Arguments that were evaluated have the same values in a second world if each of them has its value
    there. -/
theorem evalArgs_carried (each : ∀ {slot e v}, Q e v → (eval context path slot e).run catalog = .ok v →
      (eval' context' path slot e).run catalog' = .ok v) {index : Nat} {es : List Expr} {vs : List Value}
    (inside : ∀ e ∈ es, ∀ v ∈ vs, Q e v)
    (h : (evalArgs eval context path index es).run catalog = .ok vs) :
    (evalArgs eval' context' path index es).run catalog' = .ok vs := by
  induction es generalizing vs index with
  | nil => exact h
  | cons e es ih =>
      obtain ⟨v, first, h⟩ := Query.ok_of_run_bind h
      obtain ⟨rest, others, h⟩ := Query.ok_of_run_bind h
      cases h
      have here := each (inside e List.mem_cons_self v List.mem_cons_self) first
      have later := ih (fun e he v hv => inside e (List.mem_cons_of_mem _ he) v
        (List.mem_cons_of_mem _ hv)) others
      exact (Query.run_bind_ok here).trans ((Query.run_bind_ok later).trans rfl)

theorem evalKwargs_carried (each : ∀ {slot e v}, Q e v → (eval context path slot e).run catalog = .ok v →
      (eval' context' path slot e).run catalog' = .ok v) {es : List (String × Expr)}
    {vs : List (String × Value)} (inside : ∀ p ∈ es, ∀ k ∈ vs, Q p.2 k.2)
    (h : (evalKwargs eval context path es).run catalog = .ok vs) :
    (evalKwargs eval' context' path es).run catalog' = .ok vs := by
  induction es generalizing vs with
  | nil => exact h
  | cons p es ih =>
      obtain ⟨v, first, h⟩ := Query.ok_of_run_bind h
      obtain ⟨rest, others, h⟩ := Query.ok_of_run_bind h
      cases h
      have here := each (inside p List.mem_cons_self _ List.mem_cons_self) first
      have later := ih (fun p hp k hk => inside p (List.mem_cons_of_mem _ hp) k
        (List.mem_cons_of_mem _ hk)) others
      exact (Query.run_bind_ok here).trans ((Query.run_bind_ok later).trans rfl)

end Carried

variable {env : Env} {store' : Store} {catalog catalog' : Catalog} {N : String → Prop}
  {context : Context} {path : Path} {n : Nat}

/-- All that an expression reads itself is in a set of names. -/
def Reads (env : Env) (N : String → Prop) (e : Expr) : Prop :=
  ∀ name ∈ env.registry.references e, N name

/-- A second world, in which the formulas and series of the names of a set are the same. All that the
    formulas read is in the set. -/
structure AgreesOn (env : Env) (store' : Store) (catalog catalog' : Catalog) (N : String → Prop) :
    Prop where
  formulas : ∀ name, N name → catalog' name = catalog name
  stored : ∀ name, N name → ∀ w revision, store'.get? name w revision = env.store.get? name w revision
  closed : ∀ name tree, N name → catalog name = .ok (some tree) → tree.Ordered ∧ env.Reads N tree

/-- A value of an expression that is a scalar, or that is made from a set of names only, is its value in a
    second world. -/
def Carries (env : Env) (store' : Store) (catalog catalog' : Catalog) (N : String → Prop) (n : Nat) :
    Prop :=
  ∀ {context path slot e v}, e.Ordered → (v.series? = none ∨ env.Reads N e) →
    (env.evalAt n context path slot e).run catalog = .ok v →
    ({ env with store := store' }.evalAt n context path slot e).run catalog' = .ok v

theorem Carries.args (below : env.Carries store' catalog catalog' N n) {es : List Expr}
    {vs : List Value} {index : Nat} (ordered : ∀ e ∈ es, e.Ordered)
    (covered : (∀ v ∈ vs, v.series? = none) ∨ ∀ e ∈ es, env.Reads N e)
    (h : (evalArgs (env.evalAt n) context path index es).run catalog = .ok vs) :
    (evalArgs ({ env with store := store' }.evalAt n) context path index es).run catalog' = .ok vs :=
  evalArgs_carried (Q := fun e v => e.Ordered ∧ (v.series? = none ∨ env.Reads N e))
    (fun inside h => below inside.1 inside.2 h)
    (fun e he v hv => ⟨ordered e he, covered.imp (fun scalar => scalar v hv) (fun reads => reads e he)⟩) h

theorem Carries.kwargs (below : env.Carries store' catalog catalog' N n) {es : List (String × Expr)}
    {vs : List (String × Value)} (ordered : ∀ p ∈ es, p.2.Ordered)
    (covered : (∀ k ∈ vs, k.2.series? = none) ∨ ∀ p ∈ es, env.Reads N p.2)
    (h : (evalKwargs (env.evalAt n) context path es).run catalog = .ok vs) :
    (evalKwargs ({ env with store := store' }.evalAt n) context path es).run catalog' = .ok vs :=
  evalKwargs_carried (Q := fun e v => e.Ordered ∧ (v.series? = none ∨ env.Reads N e))
    (fun inside h => below inside.1 inside.2 h)
    (fun p hp k hk => ⟨ordered p hp, covered.imp (fun scalar => scalar k hk) (fun reads => reads p hp)⟩) h

/-- A series that is found under a name of the set is found in the second world. -/
theorem Carries.fetch (below : env.Carries store' catalog catalog' N n)
    (agrees : env.AgreesOn store' catalog catalog' N) {name : String} (hname : N name) {s : Series}
    (h : (env.fetch (env.evalAt n) context path name).run catalog = .ok s) :
    ({ env with store := store' }.fetch ({ env with store := store' }.evalAt n) context path name).run
      catalog' = .ok s := by
  obtain ⟨_, clear, h⟩ := Query.ok_of_run_bind h
  rw [Query.run_ofExcept] at clear
  refine (Query.run_ofExcept_bind clear _).trans ?_
  cases free : Sorted.get? name env.leaves with
  | some leaf =>
      simp only [free] at h ⊢
      exact h
  | none =>
      simp only [free] at h ⊢
      obtain ⟨tree, named, h⟩ := Query.ok_of_run_bind h
      have named' : (Query.formula name).run catalog' = .ok tree := by
        rw [Query.run_formula] at named ⊢
        rw [agrees.formulas name hname, named]
      refine (Query.run_bind_ok named').trans ?_
      cases tree with
      | none =>
          simp only [Query.run_ofExcept, primary, agrees.stored name hname] at h ⊢
          exact h
      | some tree =>
          rw [Query.run_formula] at named
          obtain ⟨ordered, reads⟩ := agrees.closed name tree hname named
          obtain ⟨v, yields, h⟩ := Query.ok_of_run_bind h
          refine (Query.run_bind_ok (below ordered (.inr reads) yields)).trans ?_
          cases v with
          | series s => exact h
          | _ => cases h

/-- Requests for expressions that read, and for names of the set are answered as in the second world. -/
theorem Carries.answer {α : Type} (below : env.Carries store' catalog catalog' N n)
    (agrees : env.AgreesOn store' catalog catalog' N) {E : Expr → Prop} {M : String → Prop}
    (values : ∀ e, E e → e.Ordered ∧ env.Reads N e) (names : ∀ name, M name → N name) {b : Body α}
    (asks : b.Asks E M) {a : α} (h : (env.answer (env.evalAt n) path b).run catalog = .ok a) :
    ({ env with store := store' }.answer ({ env with store := store' }.evalAt n) path b).run catalog' =
      .ok a := by
  induction b with
  | done b => exact h
  | fail e => cases h
  | eval context e slot next ih =>
      obtain ⟨v, first, h⟩ := Query.ok_of_run_bind h
      obtain ⟨ordered, reads⟩ := values e asks.1
      exact (Query.run_bind_ok (below ordered (.inr reads) first)).trans (ih v (asks.2 v) h)
  | fetch context name next ih =>
      obtain ⟨s, first, h⟩ := Query.ok_of_run_bind h
      exact (Query.run_bind_ok (below.fetch agrees (names name asks.1) first)).trans (ih s (asks.2 s) h)

/-- Where the operator of an application has no finder, its arguments read what it reads. -/
theorem Reads.arguments {call : Call} {o : Operator} (h : env.Reads N (.call call))
    (found : env.registry.get? call.op = some o) (finder : o.finder = none) :
    ∀ e ∈ call.arguments, env.Reads N e := by
  intro e he name hname
  refine h name (Registry.mem_references_of_argument ?_ he hname)
  rw [found, Option.bind_some, finder]

/-- An operator on values has been given scalars only, or nothing but what its application reads. -/
theorem covered (builtin : env.registry = .builtin) {call : Call} {o : Operator}
    (found : env.registry.get? call.op = some o) {run : Arguments → Body Value}
    (implementation : o.implementation = .values run) (ordered : Sorted.Ascending call.kwargs)
    {positional : List Value} {keywords : List (String × Value)}
    (hkeywords : List.Forall₂ (fun p q => p.1 = q.1 ∧ env.Yields catalog n context p.2 q.2)
      call.kwargs keywords) {b : Bound}
    (bound : o.signature.bind call.op path positional keywords = .ok b) {args : Arguments}
    (same : args.positional = b.positional) {v : Value}
    (made : (env.answer (env.evalAt n) path (run args)).run catalog = .ok v)
    (reads : v.series? = none ∨ env.Reads N (.call call)) :
    ((∀ v ∈ positional, v.series? = none) ∧ ∀ k ∈ keywords, k.2.series? = none) ∨
      ∀ e ∈ call.arguments, env.Reads N e := by
  have known : o ∈ Operator.builtins := (Registry.builtin_get? (builtin ▸ found)).1
  obtain ⟨distinct, plainKeywords⟩ := Operator.builtin_keywords o known
  have scalars := Signature.scalars_of_bind bound (ordered.of_forall₂ hkeywords) distinct plainKeywords
  have takesNone : o.signature.Scalar → (∀ v ∈ positional, v.series? = none) ∧
      ∀ k ∈ keywords, k.2.series? = none := fun scalar =>
    scalars fun param takes => absurd (scalar.param? param) (by simp [takes])
  rcases (operator_cases builtin found).2 with rfl | rfl | rfl | rfl | rfl | ⟨run', plain⟩
  · exact .inl (takesNone (by decide))
  · exact .inl (takesNone (by decide))
  · exact .inl (takesNone (by decide))
  · cases implementation
  · cases implementation
  · cases plain.implementation.symm.trans implementation
    rw [run_answer_ofExcept] at made
    rcases reads with scalar | reads
    · refine .inl (scalars fun param takes => ?_)
      rw [← same]
      exact (Operator.builtin_reveals known).unbound run' plain.implementation args v made scalar _ _ _
        param takes
    · exact .inr (reads.arguments found plain.finder)

/-- An operator that makes requests of its own makes a series. -/
theorem Yields.series_of_requests {call : Call} {o : Operator}
    (found : env.registry.get? call.op = some o)
    (asking : o = Operator.series ∨ o = Operator.timeShifted ∨ o = Operator.asOf) {v : Value}
    (h : env.Yields catalog (n + 1) context (.call call) v) : ∃ s, v = .series s := by
  rcases asking with rfl | rfl | rfl
  · obtain ⟨_, _, _, -, -, -, rfl⟩ := h.series found
    exact ⟨_, rfl⟩
  · obtain ⟨_, _, _, _, _, _, _, -, -, -, -, -, -, -, rfl⟩ := h.timeShifted found
    exact ⟨_, rfl⟩
  · obtain ⟨_, _, _, _, s, -, -, -, -, -, rfl⟩ := h.asOf found
    exact ⟨s, rfl⟩

/-- So what such an operator reads is in the set, where nothing but series has to be. -/
theorem Yields.reads_of_requests {call : Call} {o : Operator}
    (found : env.registry.get? call.op = some o)
    (asking : o = Operator.series ∨ o = Operator.timeShifted ∨ o = Operator.asOf) {v : Value}
    (h : env.Yields catalog (n + 1) context (.call call) v)
    (reads : v.series? = none ∨ env.Reads N (.call call)) : env.Reads N (.call call) := by
  obtain ⟨s, rfl⟩ := h.series_of_requests found asking
  exact reads.resolve_left (fun scalar => nomatch scalar)

/-- An application has its value in the second world, too. -/
theorem Carries.call (builtin : env.registry = .builtin)
    (agrees : env.AgreesOn store' catalog catalog' N) (below : env.Carries store' catalog catalog' N n)
    {call : Call} {slot : String} (ordered : (Expr.call call).Ordered) {v : Value}
    (reads : v.series? = none ∨ env.Reads N (.call call))
    (h : (env.evalAt (n + 1) context path slot (.call call)).run catalog = .ok v) :
    ({ env with store := store' }.evalAt (n + 1) context path slot (.call call)).run catalog' =
      .ok v := by
  have requested : ∀ {o}, env.registry.get? call.op = some o →
      o = Operator.series ∨ o = Operator.timeShifted ∨ o = Operator.asOf →
      env.Reads N (.call call) :=
    fun found asking => Yields.reads_of_requests found asking ⟨path, slot, h⟩ reads
  obtain ⟨clear, o, found, shape, applied⟩ := evalCall_ok_iff.1 h
  refine evalCall_ok_iff.2 ⟨clear, o, found, shape, ?_⟩
  have found := Registry.get?_of_find found
  have known := (operator_cases builtin found).2
  have requests := Operator.builtin_asks known
  cases applied with
  | tree implementation answered =>
      simp only [implementation] at requests
      have looksThrough : env.Reads N (.call call) ∧ o.finder = none := by
        rcases known with rfl | rfl | rfl | rfl | rfl | ⟨run', plain⟩
        · cases implementation
        · cases implementation
        · cases implementation
        · exact ⟨requested found (.inr (.inl rfl)), rfl⟩
        · exact ⟨requested found (.inr (.inr rfl)), rfl⟩
        · cases plain.implementation.symm.trans implementation
      refine .tree implementation
        (below.answer agrees (fun e he => ⟨ordered.argument he, ?_⟩) (by simp) (requests ..) answered)
      exact looksThrough.1.arguments found looksThrough.2 e he
  | values implementation hpositional hkeywords hbound answered =>
      simp only [implementation] at requests
      have covered := covered builtin found implementation ordered.self (evalKwargs_ok hkeywords) hbound
        (by rfl) answered reads
      have hpositional' := below.args (fun e he => ordered.argument (List.mem_append_left _ he))
        (covered.imp And.left fun reads e he => reads e (List.mem_append_left _ he)) hpositional
      have hkeywords' := below.kwargs
        (fun p hp => ordered.argument (List.mem_append_right _ (List.mem_map_of_mem hp)))
        (covered.imp And.right fun reads p hp =>
          reads p.2 (List.mem_append_right _ (List.mem_map_of_mem hp))) hkeywords
      refine .values implementation hpositional' hkeywords' hbound
        (below.answer agrees (by simp) (fun name given => ?_) (requests _) answered)
      obtain ⟨rfl, text⟩ := given
      exact requested found (.inl rfl) name (Gathers.mem_references builtin found ⟨rfl, _, _, _,
        evalArgs_ok hpositional, evalKwargs_ok hkeywords, hbound⟩ text).2

/-- What is evaluated from a set of names has the same values in worlds that agree on the set. -/
theorem carries (builtin : env.registry = .builtin) (agrees : env.AgreesOn store' catalog catalog' N)
    (n : Nat) : env.Carries store' catalog catalog' N n := by
  induction n with
  | zero =>
      intro context path slot e v _ _ h
      cases e with
      | literal l => exact h
      | symbol name => exact h
      | call call => cases h
  | succ n ih =>
      intro context path slot e v ordered reads h
      cases e with
      | literal l => exact h
      | symbol name => exact h
      | call call => exact ih.call builtin agrees ordered reads h

/-- What is found for an expression is all that its values at a set revision depend on: where the formulas
    and the stored series of these names are the same, they are the same, whenever it is evaluated. -/
theorem evaluate_of_dependencies (builtin : env.registry = .builtin) {e : Expr} {found : Dependencies}
    (resolved : (Dependencies.transitive env.registry env.store e).run catalog = .ok found)
    (ordered : e.Ordered)
    (orderedFormulas : ∀ name ∈ found.names, ∀ tree, catalog name = .ok (some tree) → tree.Ordered)
    (formulas : ∀ name ∈ found.names, catalog' name = catalog name)
    (stored : ∀ name ∈ found.names, ∀ w revision,
      store'.get? name w revision = env.store.get? name w revision)
    {window : Window} {r now now' : Instant} {v : Value}
    (evaluated : (env.evaluate ⟨window, some r, now⟩ e).run catalog = .ok v) :
    ({ env with store := store' }.evaluate ⟨window, some r, now'⟩ e).run catalog' = .ok v := by
  have expanded := Dependencies.expanded_of_ok resolved
  have agrees : env.AgreesOn store' catalog catalog' (· ∈ found.names) := by
    refine ⟨formulas, stored, fun name tree hname named => ⟨orderedFormulas name hname tree named, ?_⟩⟩
    rcases expanded.closed name hname with new | ⟨-, reads⟩
    · cases new
    · exact reads tree named
  have elsewhere : { env with store := store' }.registry = .builtin := builtin
  refine (evaluate_clock elsewhere window r now' now e).trans ?_
  exact carries builtin agrees _ ordered (.inr fun name hname => (expanded.reads name hname).1) evaluated

/-- The running total of a series that a formula moves stays the same when another series is recorded and
    another formula registered. -/
theorem evaluate_of_dependencies_moved :
    let early : Instant := { seconds := 15, nanos := 0 }
    let store' := recorded.store.insert "y" { seconds := 5, nanos := 0 } [({ seconds := 0, nanos := 0 }, 7)]
    let catalog' : Catalog := fun name => if name = "g" then .ok (some (.series "y")) else moving name
    ∃ found s, (Dependencies.transitive recorded.registry recorded.store runningTotal).run moving =
        .ok found ∧ found.names = ["f", "x"] ∧
      (recorded.evaluate ⟨.all, some early, { seconds := 16, nanos := 0 }⟩ runningTotal).run moving =
        .ok (.series s) ∧ s.get? { seconds := 120, nanos := 0 } = some 3 ∧
      ({ recorded with store := store' }.evaluate ⟨.all, some early, { seconds := 30, nanos := 0 }⟩
        runningTotal).run catalog' = .ok (.series s) := by
  intro early store' catalog'
  have reads : ((Dependencies.transitive recorded.registry recorded.store runningTotal).run
      moving).toOption.map Dependencies.names = some ["f", "x"] := by decide +kernel
  obtain ⟨found, resolved, names⟩ := Option.map_eq_some_iff.1 reads
  have resolved := toOption_eq_some_iff.1 resolved
  obtain ⟨s, evaluated, three⟩ := evaluate_runningTotal
  refine ⟨found, s, resolved, names, evaluated, three, ?_⟩
  have others : ∀ name ∈ found.names, name = "f" ∨ name = "x" := by
    rw [names]
    simp
  refine evaluate_of_dependencies (by simp only [recorded]) resolved (by decide +kernel)
    (fun name hname tree named => ?_) (fun name hname => ?_) (fun name hname w revision => ?_) evaluated
  · rcases others name hname with rfl | rfl
    · cases named
      decide +kernel
    · cases named
  · rcases others name hname with rfl | rfl <;> rfl
  · have apart : "y" ≠ name := by rcases others name hname with rfl | rfl <;> decide
    have kept : store'.find? name = recorded.store.find? name :=
      (Store.find?_modify ..).trans (if_neg apart)
    rw [Store.get?, Store.get?, kept]

end Env

end SeriesLang
