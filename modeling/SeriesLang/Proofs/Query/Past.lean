import SeriesLang.Proofs.Operator.Clock
import SeriesLang.Proofs.Query.Asked
import SeriesLang.Proofs.Series.Agreement
import SeriesLang.Proofs.Store.Log

/-! # The past

What is recorded later does not show at a revision: not in a stored series, and not in an expression,
as long as neither it nor a formula that it reads goes to another revision with `asof`. Nor does the time
at which the query is made.
-/

namespace SeriesLang

variable {catalog : Catalog} {r inserted : Instant} {R : Instant → Prop}

theorem Sorted.filter_put {κ α : Type} [DecidableEq κ] [LT κ] [DecidableLT κ] {key : κ}
    {keep : κ × α → Bool} (dropped : ∀ v, keep (key, v) = false) (value : α) (entries : List (κ × α)) :
    (put key value entries).filter keep = entries.filter keep := by
  induction entries with
  | nil => simp [put, dropped]
  | cons p rest ih =>
      obtain ⟨other, found⟩ := p
      rw [put]
      split
      · rw [List.filter_cons_of_neg (by simp [dropped])]
      · split
        · rename_i same
          subst same
          rw [List.filter_cons_of_neg (by simp [dropped]), List.filter_cons_of_neg (by simp [dropped])]
        · rw [List.filter_cons, List.filter_cons, ih]

/-- A version that is recorded later is not in force. -/
theorem History.valueAt?_record (later : r < inserted) (h : History) (value : Option Float) :
    (h.record inserted value).valueAt? (some r) = h.valueAt? (some r) := by
  have visible : (h.record inserted value).versions.filter (fun v => decide (v.1 ≤ r)) =
      h.versions.filter (fun v => decide (v.1 ≤ r)) :=
    Sorted.filter_put (fun _ => decide_eq_false (fun upTo => upTo later)) _ _
  rw [valueAt?, versionAt?, visible, valueAt?, versionAt?]

namespace StoredSeries

theorem valueAt?_recordRevision (later : r < inserted) (s : StoredSeries)
    (points : List (Instant × Option Float)) (t : Instant) :
    ((s.recordRevision inserted points).historyAt t).valueAt? (some r) =
      (s.historyAt t).valueAt? (some r) := by
  have recorded : ∀ s : StoredSeries,
      ((points.foldl (StoredSeries.recordPoint · inserted ·) s).historyAt t).valueAt? (some r) =
        (s.historyAt t).valueAt? (some r) := by
    induction points with
    | nil => exact fun _ => rfl
    | cons p rest ih =>
        intro s
        rw [List.foldl_cons, ih, historyAt_recordPoint]
        split
        · exact History.valueAt?_record later _ _
        · rfl
  exact recorded _

theorem get?_readAt (s : StoredSeries) (w : Window) (revision : Option Instant) (t : Instant) :
    (s.read w (fun _ => some revision)).get? t =
      if w.contains t then ((s.historyAt t).valueAt? revision).bind Series.defined? else none := by
  rw [get?_read, historyAt]
  cases Sorted.get? t s.points with
  | none => rw [Option.getD_none, History.valueAt?_empty, Option.bind_none]
  | some history => rfl

theorem read_recordRevision (later : r < inserted) (s : StoredSeries)
    (points : List (Instant × Option Float)) (w : Window) :
    (s.recordRevision inserted points).read w (fun _ => some (some r)) =
      s.read w (fun _ => some (some r)) := by
  refine Series.ext_get? ?_ (fun t => ?_)
  · exact (Series.options_ofPoints _).trans (Series.options_ofPoints _).symm
  · rw [get?_readAt, get?_readAt, valueAt?_recordRevision later]

end StoredSeries

/-- Two stores have the same series at every revision of a set. -/
def Store.SameAt (R : Instant → Prop) (store store' : Store) : Prop :=
  ∀ name w r, R r → store'.get? name w (some r) = store.get? name w (some r)

/-- A revision that is recorded for a series that is there does not change an earlier one. -/
theorem Store.sameAt_update {store : Store} {name : String} (known : store.contains name = true)
    (inserted : Instant) (points : List (Instant × Option Float)) :
    store.SameAt (· < inserted) (store.update name inserted points) := by
  intro other w r later
  obtain ⟨s, found⟩ := Option.isSome_iff_exists.1 known
  rw [get?, get?, update, find?_modify]
  split
  · rename_i same
    subst same
    rw [found, Option.getD_some, Option.map_some, Option.map_some,
      StoredSeries.read_recordRevision later]
  · rfl

theorem Query.run_bind_congr {α β : Type} {q q' : Query α} {f f' : α → Query β}
    (h : q.run catalog = q'.run catalog)
    (rest : ∀ a, q.run catalog = .ok a → (f a).run catalog = (f' a).run catalog) :
    (q.bind f).run catalog = (q'.bind f').run catalog := by
  rw [run_bind, run_bind, ← h]
  cases result : q.run catalog with
  | error e => rfl
  | ok a => exact rest a result

namespace Env

variable {env : Env} {store' : Store} {context context' : Context} {path : Path} {n : Nat}
  {E : Expr → Prop}

/-- What is evaluated with an expression of a set is in the set: the arguments of an application, and the
    formulas of the names that are read, where nothing is read in their place. -/
structure Hereditary (env : Env) (catalog : Catalog) (E : Expr → Prop) : Prop where
  argument : ∀ {call e}, E (.call call) → e ∈ call.arguments → E e
  formula : ∀ {e name tree}, E e → name ∈ e.seriesNames → Sorted.get? name env.leaves = none →
    catalog name = .ok (some tree) → E tree

/-- Over a store that is the same at some revisions, the expressions of a set have the same results in
    contexts with one of these revisions. -/
def Repeats (env : Env) (store' : Store) (catalog : Catalog) (R : Instant → Prop) (E : Expr → Prop)
    (n : Nat) : Prop :=
  ∀ {context context'} path slot {e}, context.Twin R context' → E e →
    (env.evalAt n context path slot e).run catalog =
      ({ env with store := store' }.evalAt n context' path slot e).run catalog

theorem Repeats.args (below : env.Repeats store' catalog R E n) (twin : context.Twin R context')
    {es : List Expr} (inside : ∀ e ∈ es, E e) (index : Nat) :
    (evalArgs (env.evalAt n) context path index es).run catalog =
      (evalArgs ({ env with store := store' }.evalAt n) context' path index es).run catalog := by
  induction es generalizing index with
  | nil => rfl
  | cons e es ih =>
      refine Query.run_bind_congr (below _ _ twin (inside e List.mem_cons_self)) fun v _ => ?_
      exact Query.run_bind_congr (ih (fun e he => inside e (List.mem_cons_of_mem _ he)) _)
        fun vs _ => rfl

theorem Repeats.kwargs (below : env.Repeats store' catalog R E n) (twin : context.Twin R context')
    {es : List (String × Expr)} (inside : ∀ p ∈ es, E p.2) :
    (evalKwargs (env.evalAt n) context path es).run catalog =
      (evalKwargs ({ env with store := store' }.evalAt n) context' path es).run catalog := by
  induction es with
  | nil => rfl
  | cons p es ih =>
      refine Query.run_bind_congr (below _ _ twin (inside p List.mem_cons_self)) fun v _ => ?_
      exact Query.run_bind_congr (ih (fun p hp => inside p (List.mem_cons_of_mem _ hp)))
        fun vs _ => rfl

theorem primary_eq (same : env.store.SameAt R store') (twin : context.Twin R context') (name : String) :
    { env with store := store' }.primary context' path name = env.primary context path name := by
  cases twin with
  | of inside => rw [primary, primary, same name _ _ inside]

/-- The series of a name that an expression of the set reads. -/
theorem Repeats.fetch (below : env.Repeats store' catalog R E n) (same : env.store.SameAt R store')
    (hereditary : env.Hereditary catalog E) (twin : context.Twin R context') {e : Expr} (inside : E e)
    {name : String} (mentions : name ∈ e.seriesNames) :
    (env.fetch (env.evalAt n) context path name).run catalog =
      ({ env with store := store' }.fetch ({ env with store := store' }.evalAt n) context' path
        name).run catalog := by
  refine Query.run_bind_congr rfl fun _ _ => ?_
  cases free : Sorted.get? name env.leaves with
  | some s =>
      dsimp only
      rw [twin.window]
  | none =>
      refine Query.run_bind_congr rfl fun tree named => ?_
      rw [Query.run_formula] at named
      cases tree with
      | none =>
          simp only [Query.run_ofExcept]
          exact (primary_eq same twin name).symm
      | some tree =>
          refine Query.run_bind_congr ?_ fun v _ => ?_
          · exact below path name twin (hereditary.formula inside mentions free named)
          · rw [twin.window]

/-- Requests for expressions and names of a set, made in contexts that are twins, are answered alike. -/
theorem Repeats.answer {α : Type} {F : Expr → Prop} {N : String → Prop}
    (below : env.Repeats store' catalog R F n)
    (names : ∀ {context context'} name, context.Twin R context' → N name →
      (env.fetch (env.evalAt n) context path name).run catalog =
        ({ env with store := store' }.fetch ({ env with store := store' }.evalAt n) context' path
          name).run catalog)
    {b b' : Body α} (h : b.Twin R b') (asks : b.Asks F N) :
    (env.answer (env.evalAt n) path b).run catalog =
      ({ env with store := store' }.answer ({ env with store := store' }.evalAt n) path b').run
        catalog := by
  induction h with
  | done a => rfl
  | fail e => rfl
  | eval twin _ ih =>
      exact Query.run_bind_congr (below _ _ twin asks.1) fun v _ => ih v (asks.2 v)
  | fetch twin _ ih =>
      exact Query.run_bind_congr (names _ twin asks.1) fun s _ => ih s (asks.2 s)

/-- The built-in operators of a set of expressions repeat what expressions one level down do. -/
theorem Repeats.call (builtin : env.registry = .builtin) (same : env.store.SameAt R store')
    (hereditary : env.Hereditary catalog E)
    (free : ∀ {call : Call}, E (.call call) → call.op = "asof" → ∀ r, R r)
    (below : env.Repeats store' catalog R E n) {call : Call} (twin : context.Twin R context')
    (inside : E (.call call)) :
    (env.evalCall (env.evalAt n) context path call).run catalog =
      ({ env with store := store' }.evalCall ({ env with store := store' }.evalAt n) context' path
        call).run catalog := by
  have argument : env.Repeats store' catalog R (· ∈ call.arguments) n :=
    fun path slot e twin he => below path slot twin (hereditary.argument inside he)
  refine Query.run_bind_congr rfl fun _ _ => Query.run_bind_congr rfl fun o found =>
    Query.run_bind_congr rfl fun _ _ => ?_
  rw [Query.run_ofExcept] at found
  obtain ⟨named, known⟩ := operator_cases builtin (Registry.get?_of_find found)
  have twins := Operator.builtin_twin known
    (fun moved => free inside (named.symm.trans (moved ▸ rfl))) twin
  have requests := Operator.builtin_asks known
  cases implementation : o.implementation with
  | tree run =>
      simp only [implementation] at twins requests ⊢
      exact argument.answer (by simp) (twins call path) (requests call context path)
  | values run =>
      simp only [implementation] at twins requests ⊢
      refine Query.run_bind_congr (argument.args twin (fun e he => List.mem_append_left _ he) 0)
        fun positional hpositional => ?_
      refine Query.run_bind_congr (argument.kwargs twin
        (fun p hp => List.mem_append_right _ (List.mem_map_of_mem hp))) fun keywords hkeywords => ?_
      refine Query.run_bind_congr rfl fun bound hbound => ?_
      rw [Query.run_ofExcept] at hbound
      refine Repeats.answer (F := fun _ => False) (by rintro _ _ _ _ _ _ ⟨⟩) (fun name twin reads => ?_)
        (twins ⟨call.op, path, bound.positional, bound.keywords, none⟩) (requests _)
      obtain ⟨rfl, text⟩ := reads
      refine below.fetch same hereditary twin inside (Expr.mem_seriesNames_self ?_)
      exact Gathers.seriesName? builtin named.symm ⟨rfl, _, positional, keywords,
        evalArgs_ok hpositional, evalKwargs_ok hkeywords, hbound⟩ text

/-- The results of expressions at some revisions depend on what the store is at these revisions, and not
    on the time. -/
theorem repeats (builtin : env.registry = .builtin) (same : env.store.SameAt R store')
    (hereditary : env.Hereditary catalog E)
    (free : ∀ {call : Call}, E (.call call) → call.op = "asof" → ∀ r, R r) (n : Nat) :
    env.Repeats store' catalog R E n := by
  induction n with
  | zero =>
      intro context context' path slot e _ _
      cases e <;> rfl
  | succ n ih =>
      intro context context' path slot e twin inside
      cases e with
      | literal l => rfl
      | symbol name => rfl
      | call call => exact ih.call builtin same hereditary free twin inside

/-- At a set revision it does not matter when an expression is evaluated. -/
theorem evaluate_clock (builtin : env.registry = .builtin) (window : Window) (r now now' : Instant)
    (e : Expr) : (env.evaluate ⟨window, some r, now⟩ e).run catalog =
      (env.evaluate ⟨window, some r, now'⟩ e).run catalog :=
  repeats (R := fun _ => True) (E := fun _ => True) builtin (fun _ _ _ _ => rfl)
    ⟨fun _ _ => trivial, fun _ _ _ _ => trivial⟩ (fun _ _ _ => trivial) _ _ _ (.of trivial) trivial

/-- The trees that are evaluated with an expression: itself and the formulas of the names that it reads
    and that nothing is read in place of, through any number of formulas. -/
inductive Opens (env : Env) (catalog : Catalog) : Expr → Expr → Prop
  | self (e) : Opens env catalog e e
  | formula {e name tree other} (mentions : name ∈ e.seriesNames)
      (free : Sorted.get? name env.leaves = none) (named : catalog name = .ok (some tree))
      (rest : Opens env catalog tree other) : Opens env catalog e other

/-- Neither the expression nor a formula that it reads asks for another revision. -/
def Unmoved (env : Env) (catalog : Catalog) (e : Expr) : Prop :=
  ∀ tree, env.Opens catalog e tree → ∀ call ∈ tree.calls, call.op ≠ "asof"

/-- What holds of all applications in the trees that are evaluated with an expression holds of those that are
    evaluated with one that it evaluates. -/
theorem hereditary_calls (P : Call → Prop) :
    env.Hereditary catalog (fun e => ∀ tree, env.Opens catalog e tree → ∀ call ∈ tree.calls, P call) where
  argument := by
    intro call e all he tree opens
    cases opens with
    | self => exact fun inner hinner => all _ (.self _) inner (Expr.mem_calls_of_argument he hinner)
    | formula mentions free named rest =>
        exact all tree (.formula (Expr.mem_seriesNames_of_argument he mentions) free named rest)
  formula all mentions free named := fun other rest => all other (.formula mentions free named rest)

theorem hereditary_unmoved : env.Hereditary catalog (env.Unmoved catalog) :=
  hereditary_calls (fun call => call.op ≠ "asof")

/-- Recording a revision of a series does not change what an expression evaluates to as of an earlier
    date, be it a value or an error, whenever it is evaluated. -/
theorem evaluate_update (builtin : env.registry = .builtin) {name : String}
    (known : env.store.contains name = true) {r inserted : Instant} (later : r < inserted)
    (points : List (Instant × Option Float)) {e : Expr} (unmoved : env.Unmoved catalog e)
    (window : Window) (now now' : Instant) :
    ({ env with store := env.store.update name inserted points }.evaluate ⟨window, some r, now'⟩ e).run
        catalog = (env.evaluate ⟨window, some r, now⟩ e).run catalog :=
  (repeats builtin (Store.sameAt_update known inserted points) hereditary_unmoved
    (fun unmoved moved => absurd moved (unmoved _ (.self _) _ (Expr.mem_calls_self _))) _ _ _
    (.of later) unmoved).symm

/-- A series of two points that was recorded at 10. -/
def recorded : Env where
  registry := .builtin
  store := ({} : Store).insert "x" { seconds := 10, nanos := 0 }
    [({ seconds := 0, nanos := 0 }, 1), ({ seconds := 60, nanos := 0 }, 2)]

/-- A catalog with one formula, which moves that series. -/
def moving : Catalog :=
  fun name => .ok (if name = "f" then
    some (.call ⟨"time-shifted", [.series "x"], [("minutes", .literal (.int 1))]⟩) else none)

/-- The running total of the formula. -/
def runningTotal : Expr :=
  .call ⟨"cumsum", [.series "f"], []⟩

theorem unmoved_runningTotal : recorded.Unmoved moving runningTotal := by
  have names : runningTotal.seriesNames = ["f"] := by decide +kernel
  intro tree opens
  cases opens with
  | self => decide +kernel
  | @formula _ name tree _ mentions _ named rest =>
      rw [names] at mentions
      cases List.mem_singleton.1 mentions
      cases named
      have inner : (Expr.call ⟨"time-shifted", [.series "x"],
        [("minutes", .literal (.int 1))]⟩).seriesNames = ["x"] := by decide +kernel
      cases rest with
      | self => decide +kernel
      | @formula _ name tree _ mentions _ named _ =>
          rw [inner] at mentions
          cases List.mem_singleton.1 mentions
          cases named

/-- At 15 the last point of the running total is 3. -/
theorem evaluate_runningTotal :
    ∃ s, (recorded.evaluate ⟨.all, some { seconds := 15, nanos := 0 }, { seconds := 16, nanos := 0 }⟩
        runningTotal).run moving = .ok (.series s) ∧
      s.get? { seconds := 120, nanos := 0 } = some 3 := by
  have evaluated : ((recorded.evaluate
      ⟨.all, some { seconds := 15, nanos := 0 }, { seconds := 16, nanos := 0 }⟩ runningTotal).run
        moving).toOption.bind (fun v => v.series?.bind (·.get? { seconds := 120, nanos := 0 })) =
      some 3 := by decide +kernel
  obtain ⟨v, evaluated, total⟩ := Option.bind_eq_some_iff.1 evaluated
  obtain ⟨s, series, three⟩ := Option.bind_eq_some_iff.1 total
  cases Value.eq_of_series? series
  exact ⟨s, toOption_eq_some_iff.1 evaluated, three⟩

/-- At 20 one of the points is erased and the other one corrected; as of 15 the total is the old one. -/
theorem evaluate_update_erased :
    let early : Instant := { seconds := 15, nanos := 0 }
    let late : Instant := { seconds := 20, nanos := 0 }
    let points : List (Instant × Option Float) :=
      [({ seconds := 0, nanos := 0 }, none), ({ seconds := 60, nanos := 0 }, some 5)]
    ∃ s, (recorded.evaluate ⟨.all, some early, { seconds := 16, nanos := 0 }⟩ runningTotal).run moving =
        .ok (.series s) ∧ s.get? { seconds := 120, nanos := 0 } = some 3 ∧
      ({ recorded with store := recorded.store.update "x" late points }.evaluate
        ⟨.all, some early, { seconds := 30, nanos := 0 }⟩ runningTotal).run moving = .ok (.series s) := by
  intro early late points
  obtain ⟨s, evaluated, three⟩ := evaluate_runningTotal
  refine ⟨s, evaluated, three, ?_⟩
  exact (evaluate_update (by simp only [recorded]) (by decide +kernel) (by decide) points
    unmoved_runningTotal .all _ _).trans evaluated

end Env

end SeriesLang
