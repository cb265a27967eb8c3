import SeriesLang.Proofs.Query.Coverage
import SeriesLang.Proofs.Query.Replay

/-! # The last revision date

At a revision an expression has the value that it had at the last of its revision dates before. No operator
but those that look at the revision itself sees the difference between two revisions that come after the same
dates, so what could be evaluated at one of them can be evaluated at the other one.
-/

namespace SeriesLang

/-- Of the dates up to a revision one is the last. -/
theorem Index.exists_last {r : Instant} {dates : List Instant} (h : ∃ d ∈ dates, d ≤ r) :
    ∃ d ∈ dates, d ≤ r ∧ ∀ d' ∈ dates, d' ≤ r → d' ≤ d := by
  induction dates with
  | nil =>
      obtain ⟨d, hd, -⟩ := h
      cases hd
  | cons first rest ih =>
      by_cases among : ∃ d ∈ rest, d ≤ r
      · obtain ⟨last, hlast, upTo, greatest⟩ := ih among
        by_cases later : first ≤ r ∧ ¬ first ≤ last
        · refine ⟨first, List.mem_cons_self, later.1, List.forall_mem_cons.2 ⟨fun _ => Instant.le_refl _, ?_⟩⟩
          exact fun d hd hle => Instant.le_trans (greatest d hd hle)
            (Instant.le_of_lt (Instant.lt_of_not_le later.2))
        · refine ⟨last, List.mem_cons_of_mem _ hlast, upTo, List.forall_mem_cons.2 ⟨fun hle => ?_, greatest⟩⟩
          exact Decidable.of_not_not fun beyond => later ⟨hle, beyond⟩
      · obtain ⟨d, hd, hle⟩ := h
        rcases List.mem_cons.1 hd with rfl | hd
        · exact ⟨d, List.mem_cons_self, hle, List.forall_mem_cons.2 ⟨fun _ => Instant.le_refl _,
            fun d' hd' hle' => absurd ⟨d', hd', hle'⟩ among⟩⟩
        · exact absurd ⟨d, hd, hle⟩ among

namespace Env

variable {env : Env} {catalog : Catalog} {D : Instant → Prop} {N : String → Prop} {n : Nat}
  {w : Window} {now r r' : Instant} {path : Path}

/-- Revisions that come after the same dates of a set, in a world where the series of a set of names change
    at no others. -/
structure Between (env : Env) (catalog : Catalog) (D : Instant → Prop) (N : String → Prop)
    (r r' : Instant) : Prop where
  builtin : env.registry = .builtin
  built : env.store.Built
  settled : env.Settled catalog D N
  ordered : ∀ name tree, N name → catalog name = .ok (some tree) → tree.Ordered
  same : ∀ d, D d → (d ≤ r ↔ d ≤ r')

/-- An expression whose own constants begin at dates of a set, whatever it reads by name. -/
structure Dated (env : Env) (catalog : Catalog) (D : Instant → Prop) (e : Expr) : Prop where
  ordered : e.Ordered
  covers : env.Covers catalog D (fun _ => True) e

theorem Covers.dated {e : Expr} (h : env.Covers catalog D N e) (ordered : e.Ordered) :
    env.Dated catalog D e :=
  ⟨ordered, h.steady, fun _ _ => trivial, h.revisions⟩

theorem Dated.argument {call : Call} (h : env.Dated catalog D (.call call)) {e : Expr}
    (he : e ∈ call.arguments) : env.Dated catalog D e where
  ordered := h.ordered.argument he
  covers := ⟨h.covers.steady.argument he, fun _ _ => trivial,
    fun inner hinner => h.covers.revisions inner (Expr.mem_calls_of_argument he hinner)⟩

/-- A value at one revision that is a scalar, or that is made from a set of names only, is the value at another
    revision. -/
def Remains (env : Env) (catalog : Catalog) (D : Instant → Prop) (N : String → Prop) (r r' : Instant)
    (n : Nat) : Prop :=
  ∀ {w now path slot e v}, env.Dated catalog D e → (v.series? = none ∨ env.Reads N e) →
    (env.evalAt n ⟨w, some r, now⟩ path slot e).run catalog = .ok v →
    (env.evalAt n ⟨w, some r', now⟩ path slot e).run catalog = .ok v

/-- A series that is found under a name of the set is found at the other revision. -/
theorem Remains.fetch (below : env.Remains catalog D N r r' n) (between : env.Between catalog D N r r')
    {name : String} (hname : N name) {s : Series}
    (h : (env.fetch (env.evalAt n) ⟨w, some r, now⟩ path name).run catalog = .ok s) :
    (env.fetch (env.evalAt n) ⟨w, some r', now⟩ path name).run catalog = .ok s := by
  obtain ⟨_, clear, h⟩ := Query.ok_of_run_bind h
  refine (Query.run_bind_ok clear).trans ?_
  cases free : Sorted.get? name env.leaves with
  | some leaf =>
      simp only [free] at h ⊢
      exact h
  | none =>
      simp only [free] at h ⊢
      obtain ⟨tree, named, h⟩ := Query.ok_of_run_bind h
      refine (Query.run_bind_ok named).trans ?_
      rw [Query.run_formula] at named
      cases tree with
      | none =>
          have read := Store.get?_congr between.built w fun s hs d hd =>
            between.same d (between.settled.stored name hname named s hs d hd)
          simp only [Query.run_ofExcept, primary, ← read] at h ⊢
          exact h
      | some tree =>
          have covers := between.settled.formulas name hname tree named
          obtain ⟨v, yields, h⟩ := Query.ok_of_run_bind h
          have again := below (covers.dated (between.ordered name tree hname named)) (.inr covers.reads) yields
          refine (Query.run_bind_ok again).trans ?_
          cases v with
          | series s => exact h
          | _ => cases h

/-- Requests at one revision and at another one, for values of expressions of which the values remain. -/
def revised (env : Env) (catalog : Catalog) (D : Instant → Prop) (N : String → Prop) (r r' : Instant) :
    Body.Link where
  contexts context context' := context.revision = some r ∧ context' = { context with revision := some r' }
  values e e' := e = e' ∧ env.Dated catalog D e ∧ env.Reads N e
  errors _ _ := True

theorem Remains.answer {α : Type} (below : env.Remains catalog D N r r' n) {b b' : Body α}
    (parallel : b.Parallel (env.revised catalog D N r r') b') {a : α}
    (h : (env.answer (env.evalAt n) path b).run catalog = .ok a) :
    (env.answer (env.evalAt n) path b').run catalog = .ok a := by
  induction parallel with
  | done _ => exact h
  | fail => cases h
  | @eval context _ _ _ _ _ _ contexts values _ ih =>
      obtain ⟨w, revision, now⟩ := context
      obtain ⟨rfl, rfl⟩ := contexts
      obtain ⟨rfl, dated, reads⟩ := values
      obtain ⟨v, first, h⟩ := Query.ok_of_run_bind h
      exact (Query.run_bind_ok (below dated (.inr reads) first)).trans (ih v h)

theorem revised_shiftSeries {call : Call}
    (inside : ∀ e ∈ call.arguments, env.Dated catalog D e ∧ env.Reads N e) :
    (Operator.shiftSeries call ⟨w, some r, now⟩ path).Parallel (env.revised catalog D N r r')
      (Operator.shiftSeries call ⟨w, some r', now⟩ path) :=
  Operator.parallel_shiftSeries
    ((Application.Similar.refl (R := Eq) (fun _ => rfl) call).imp fun e he _ same => ⟨same, inside e he⟩)
    (.refl (fun _ => trivial) path) ⟨rfl, rfl⟩ rfl fun _ => ⟨rfl, rfl⟩

/-- A constant that begins up to both of two revisions, or after both, is the same at them. -/
theorem makeConstant_eq (args : Arguments) (same : ∀ d, args.instantAt 4 = .ok d → (d ≤ r ↔ d ≤ r')) :
    Operator.makeConstant { args with context := some ⟨w, some r', now⟩ } =
      Operator.makeConstant { args with context := some ⟨w, some r, now⟩ } := by
  show Except.bind (args.numberAt 0) _ = Except.bind (args.numberAt 0) _
  congr 1
  funext v
  show Except.bind (args.instantAt 4) _ = Except.bind (args.instantAt 4) _
  cases given : args.instantAt 4 with
  | error e => rfl
  | ok revision =>
      have early : (r' < revision) = (r < revision) :=
        propext ⟨fun hlt => Instant.lt_of_not_le fun hle => (same revision given).1 hle hlt,
          fun hlt => Instant.lt_of_not_le fun hle => (same revision given).2 hle hlt⟩
      simp only [Except.bind, Option.any_some, early]
      rfl

theorem Remains.readSeries (below : env.Remains catalog D N r r' n) (between : env.Between catalog D N r r')
    (args : Arguments) (names : ∀ name, args.textAt 0 = .ok name → N name) {v : Value}
    (h : (env.answer (env.evalAt n) path
      (Operator.readSeries { args with context := some ⟨w, some r, now⟩ })).run catalog = .ok v) :
    (env.answer (env.evalAt n) path
      (Operator.readSeries { args with context := some ⟨w, some r', now⟩ })).run catalog = .ok v := by
  obtain ⟨_, sees, h⟩ := ok_of_answer_bind h
  cases sees
  obtain ⟨name, text, h⟩ := ok_of_answer_bind h
  obtain ⟨s, fetched, h⟩ := ok_of_answer_bind h
  refine (run_answer_bind_ok text).trans ?_
  rw [run_answer_ofExcept] at text
  obtain ⟨_, fetched, same⟩ := Query.ok_of_run_bind fetched
  cases same
  exact (Query.run_bind_ok (below.fetch between (names name text) fetched)).trans h

/-- An operator that has been given arguments at one revision is given them at the other one. -/
theorem Remains.gathers (below : env.Remains catalog D N r r' n) {call : Call}
    (dated : env.Dated catalog D (.call call)) {index : Nat} {positional : List Value}
    {keywords : List (String × Value)}
    (covered : ((∀ v ∈ positional, v.series? = none) ∧ ∀ k ∈ keywords, k.2.series? = none) ∨
      ∀ e ∈ call.arguments, env.Reads N e)
    (hpositional : (evalArgs (env.evalAt n) ⟨w, some r, now⟩ path index call.args).run catalog =
      .ok positional)
    (hkeywords : (evalKwargs (env.evalAt n) ⟨w, some r, now⟩ path call.kwargs).run catalog = .ok keywords) :
    (evalArgs (env.evalAt n) ⟨w, some r', now⟩ path index call.args).run catalog = .ok positional ∧
      (evalKwargs (env.evalAt n) ⟨w, some r', now⟩ path call.kwargs).run catalog = .ok keywords := by
  refine ⟨evalArgs_carried (Q := fun e v => env.Dated catalog D e ∧ (v.series? = none ∨ env.Reads N e))
    (fun inside h => below inside.1 inside.2 h) (fun e he v hv => ?_) hpositional,
    evalKwargs_carried (Q := fun e v => env.Dated catalog D e ∧ (v.series? = none ∨ env.Reads N e))
    (fun inside h => below inside.1 inside.2 h) (fun p hp k hk => ?_) hkeywords⟩
  · have inside : e ∈ call.arguments := List.mem_append_left _ he
    exact ⟨dated.argument inside, covered.imp (fun scalar => scalar.1 v hv) (fun reads => reads e inside)⟩
  · have inside : p.2 ∈ call.arguments := List.mem_append_right _ (List.mem_map_of_mem hp)
    exact ⟨dated.argument inside, covered.imp (fun scalar => scalar.2 k hk) (fun reads => reads _ inside)⟩

/-- The steady built-in operators come to the same at the other revision. -/
theorem Remains.call (below : env.Remains catalog D N r r' n) (between : env.Between catalog D N r r')
    {call : Call} (dated : env.Dated catalog D (.call call)) {slot : String} {v : Value}
    (reads : v.series? = none ∨ env.Reads N (.call call))
    (h : (env.evalAt (n + 1) ⟨w, some r, now⟩ path slot (.call call)).run catalog = .ok v) :
    (env.evalAt (n + 1) ⟨w, some r', now⟩ path slot (.call call)).run catalog = .ok v := by
  have requested : ∀ {o}, env.registry.get? call.op = some o →
      o = Operator.series ∨ o = Operator.timeShifted ∨ o = Operator.asOf → env.Reads N (.call call) :=
    fun found asking => Yields.reads_of_requests found asking ⟨path, slot, h⟩ reads
  obtain ⟨clear, o, found, shape, applied⟩ := evalCall_ok_iff.1 h
  refine evalCall_ok_iff.2 ⟨clear, o, found, shape, ?_⟩
  have found := Registry.get?_of_find found
  cases applied with
  | tree implementation answered =>
      rcases steady_cases between.builtin dated.covers.steady.self found with
        rfl | rfl | rfl | ⟨run', plain⟩
      · cases implementation
      · cases implementation
      · cases implementation
        have through := (requested found (.inr (.inl rfl))).arguments found rfl
        exact .tree rfl (below.answer (revised_shiftSeries fun e he => ⟨dated.argument he, through e he⟩) answered)
      · cases plain.implementation.symm.trans implementation
  | @values run positional keywords bound implementation hpositional hkeywords hbound answered =>
      -- The arguments of `series` and `constant` may read names outside of the set, but they are scalars.
      have covered := covered between.builtin found implementation dated.ordered.self
        (evalKwargs_ok hkeywords) hbound (by rfl) answered reads
      obtain ⟨hpositional', hkeywords'⟩ := below.gathers dated covered hpositional hkeywords
      refine .values implementation hpositional' hkeywords' hbound ?_
      let args : Arguments := ⟨call.op, path.child slot call.op, bound.positional, bound.keywords, none⟩
      have gathers : env.Gathers catalog n ⟨w, some r, now⟩ o call
          { args with context := if o.wantsContext then some ⟨w, some r, now⟩ else none } :=
        ⟨rfl, _, positional, keywords, evalArgs_ok hpositional, evalKwargs_ok hkeywords, hbound⟩
      obtain ⟨named, -⟩ := operator_cases between.builtin found
      rcases steady_cases between.builtin dated.covers.steady.self found with
        rfl | rfl | rfl | ⟨run', plain⟩
      · cases implementation
        have read := requested found (.inl rfl)
        exact below.readSeries between args
          (fun name text => read name (gathers.mem_references between.builtin found text).2) answered
      · cases implementation
        rw [run_answer_ofExcept] at answered ⊢
        refine (makeConstant_eq args fun d given => ?_).trans answered
        obtain ⟨fifth, v, present, yields, coerced⟩ := gathers.revision given
        exact between.same d (dated.covers.revisions call (Expr.mem_calls_self call) named.symm fifth present
          _ _ v d yields coerced)
      · cases implementation
      · cases plain.implementation.symm.trans implementation
        rw [run_answer_ofExcept, plain.context] at answered ⊢
        exact answered

/-- What is evaluated from a set of names remains the same between dates at which their series change. -/
theorem remains (between : env.Between catalog D N r r') (n : Nat) : env.Remains catalog D N r r' n := by
  induction n with
  | zero =>
      intro w now path slot e v _ _ h
      cases e with
      | literal l => exact h
      | symbol name => exact h
      | call call => cases h
  | succ n ih =>
      intro w now path slot e v dated reads h
      cases e with
      | literal l => exact h
      | symbol name => exact h
      | call call => exact ih.call between dated reads h

end Env

namespace Staircase

variable {env : Env} {catalog : Catalog} {context : Context} {e : Expr}

/-- At any revision from the first of its revision dates on, an expression has the value that it had at the
    last one of them before: the values at these dates determine it at every later revision. -/
theorem evaluate_last_date (builtin : env.registry = .builtin) (built : env.store.Built)
    (steady : ∀ e', e.Reaches env.registry catalog e' → e'.Steady)
    (ordered : ∀ e', e.Reaches env.registry catalog e' → e'.Ordered) {dates : List Instant}
    (dated : (revisionDates env context e .all).run catalog = .ok dates) {r : Instant}
    (begun : ∃ d ∈ dates, d ≤ r) :
    ∃ d ∈ dates, d ≤ r ∧ (∀ d' ∈ dates, d' ≤ r → d' ≤ d) ∧
      ∀ v, (env.evaluate { context with revision := some d } e).run catalog = .ok v →
        (env.evaluate { context with revision := some r } e).run catalog = .ok v := by
  obtain ⟨covers, settled⟩ := covers_revisionDates builtin steady dated
  obtain ⟨last, hlast, upTo, greatest⟩ := Index.exists_last begun
  have between : env.Between catalog (· ∈ dates) (ReadsName env catalog e) last r := by
    refine ⟨builtin, built, settled, ?_, fun d hd => ⟨fun before => Instant.le_trans before upTo,
      greatest d hd⟩⟩
    rintro name tree ⟨e', reached, reads⟩ named
    exact ordered tree (reached.formula reads named)
  refine ⟨last, hlast, upTo, greatest, fun v evaluated => ?_⟩
  exact Env.remains between _ (covers.dated (ordered e .self)) (.inr covers.reads) evaluated

/-- The running total of the raised series at 40 is the one that it had at 15, when a value was corrected. -/
theorem evaluate_last_date_corrected :
    let now : Instant := { seconds := 60, nanos := 0 }
    let known : Instant := { seconds := 15, nanos := 0 }
    let later : Instant := { seconds := 40, nanos := 0 }
    ∃ v, (corrected.evaluate { now, revision := some known } total).run raising = .ok v ∧
      (corrected.evaluate { now, revision := some later } total).run raising = .ok v := by
  intro now known later
  have evaluated : ((corrected.evaluate { now, revision := some known } total).run
      raising).toOption ≠ none := by decide +kernel
  have dated : ((revisionDates corrected { now } total .all).run raising).toOption =
      some [{ seconds := 10, nanos := 0 }, known] := by decide +kernel
  obtain ⟨v, hv⟩ := Option.ne_none_iff_exists'.1 evaluated
  have hv := toOption_eq_some_iff.1 hv
  have plain : ∀ e, total.Reaches corrected.registry raising e → e.Steady ∧ e.Ordered := by
    intro e h
    rcases reaches_total h with rfl | formula
    · exact ⟨(by decide +kernel : ∀ call ∈ total.calls, call.op ≠ "today" ∧ call.op ≠ "asof"),
        by decide +kernel⟩
    · cases formula
      exact ⟨(by decide +kernel : ∀ call ∈ (Expr.call ⟨"+", [.literal (.int 1), .series "x"], []⟩).calls,
        call.op ≠ "today" ∧ call.op ≠ "asof"), by decide +kernel⟩
  obtain ⟨d, hd, upTo, greatest, same⟩ := evaluate_last_date (by simp only [corrected])
    ((Store.Built.empty.insert _ _ _).insert _ _ _) (fun e h => (plain e h).1) (fun e h => (plain e h).2)
    (toOption_eq_some_iff.1 dated) (r := later) ⟨known, by simp, by decide +kernel⟩
  have last : d = known := by
    rcases List.mem_cons.1 hd with rfl | hd
    · exact absurd (greatest known (by simp) (by decide +kernel)) (by decide +kernel)
    · exact List.mem_singleton.1 hd
  subst last
  exact ⟨v, hv, same v hv⟩

end Staircase

end SeriesLang
