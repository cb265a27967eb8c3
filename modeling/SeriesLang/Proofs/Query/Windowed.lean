import SeriesLang.Proofs.Query.Past
import SeriesLang.Proofs.Query.Pointwise

/-! # Evaluation in a window

A window is handed down to the series that are read, and cut out again at every formula. As long as operators
look at one instant at a time, or move the window along with the points, that is as good as to evaluate over all
instants and to cut the window out of the result.
-/

namespace SeriesLang

namespace Window

variable {w : Window} {t u : Instant} {delta : Int}

theorem contains_all (t : Instant) : all.contains t = true :=
  rfl

theorem contains_iff :
    w.contains t = true ↔ (∀ l ∈ w.lower, l ≤ t) ∧ ∀ l ∈ w.upper, t ≤ l := by
  simp only [contains, Bool.and_eq_true, Option.all_eq_true, decide_eq_true_eq, Option.mem_def]

/-- No bound lies in a leap second. -/
def Regular (w : Window) : Prop :=
  (∀ l ∈ w.lower, l.Regular) ∧ ∀ l ∈ w.upper, l.Regular

theorem Regular.windowBefore (bounds : w.Regular) (delta : Int) :
    (Operator.windowBefore w delta).Regular := by
  have moved : ∀ {bound : Option Instant}, (∀ l ∈ bound, l.Regular) →
      ∀ l ∈ bound.bind (·.addSeconds? (-delta)), l.Regular := by
    intro bound regular l hl
    obtain ⟨origin, horigin, hl⟩ := Option.bind_eq_some_iff.1 hl
    exact ((regular origin horigin).addSeconds?_eq_some_iff.1 hl).1
  exact ⟨moved bounds.1, moved bounds.2⟩

/-- The instants that a shift moves into a window lie in the window before, whose bounds are moved back or
    left out. -/
theorem contains_windowBefore (bounds : w.Regular) (ht : t.Regular)
    (hu : t.addSeconds? (-delta) = some u) (inside : w.contains t = true) :
    (Operator.windowBefore w delta).contains u = true := by
  obtain ⟨after, before⟩ := contains_iff.1 inside
  obtain ⟨regular, sum⟩ := ht.addSeconds?_eq_some_iff.1 hu
  refine contains_iff.2 ⟨fun l hl => ?_, fun l hl => ?_⟩
  · obtain ⟨origin, horigin, hl⟩ := Option.bind_eq_some_iff.1 hl
    have known := bounds.1 origin horigin
    obtain ⟨moved, sum'⟩ := known.addSeconds?_eq_some_iff.1 hl
    have hle := (known.le_iff_count ht).1 (after origin horigin)
    exact (moved.le_iff_count regular).2 (by omega)
  · obtain ⟨origin, horigin, hl⟩ := Option.bind_eq_some_iff.1 hl
    have known := bounds.2 origin horigin
    obtain ⟨moved, sum'⟩ := known.addSeconds?_eq_some_iff.1 hl
    have hle := (ht.le_iff_count known).1 (before origin horigin)
    exact (regular.le_iff_count moved).2 (by omega)

end Window

namespace Series

variable {w : Window} {s s' : Series} {ss ss' : List Series} {t : Instant}

theorem ascending_moved (regular : s.Within Instant.Regular) (delta : Int) :
    Sorted.Ascending (s.points.filterMap (fun p => (p.1.addSeconds? delta).map (·, p.2))) := by
  refine List.pairwise_filterMap.2 (s.ascending.imp_of_mem fun {p q} hp hq before p' hp' q' hq' => ?_)
  obtain ⟨t, ht, rfl⟩ := Option.map_eq_some_iff.1 hp'
  obtain ⟨u, hu, rfl⟩ := Option.map_eq_some_iff.1 hq'
  obtain ⟨regular₁, sum₁⟩ := (regular p hp).addSeconds?_eq_some_iff.1 ht
  obtain ⟨regular₂, sum₂⟩ := (regular q hq).addSeconds?_eq_some_iff.1 hu
  have apart := ((regular p hp).lt_iff_count (regular q hq)).1 before
  exact (regular₁.lt_iff_count regular₂).2 (by omega)

/-- A moved series has at an instant what the series has where the instant came from. -/
theorem get?_moved (regular : s.Within Instant.Regular) (delta : Int) (t : Instant) :
    (s.moved delta).get? t =
      if t.Regular then (t.addSeconds? (-delta)).bind s.get? else none := by
  have shown : (s.moved delta).get? t = (Sorted.get? t
      (s.points.filterMap (fun p => (p.1.addSeconds? delta).map (·, p.2)))).bind defined? :=
    get?_ofPoints (ascending_moved regular delta) t
  rw [shown]
  refine Option.ext fun v => ?_
  simp only [Option.bind_eq_some_iff, Sorted.get?_eq_some_iff (ascending_moved regular delta),
    List.mem_filterMap, Option.map_eq_some_iff, Option.ite_none_right_eq_some]
  constructor
  · rintro ⟨x, ⟨⟨u, y⟩, hu, _, moved, same⟩, number⟩
    cases same
    obtain ⟨rfl, -⟩ := defined?_eq_some_iff.1 number
    have origin : u.Regular := regular _ hu
    obtain ⟨ht, -⟩ := origin.addSeconds?_eq_some_iff.1 moved
    exact ⟨ht, u, (origin.addSeconds?_neg ht).2 moved, get?_eq_some_iff.2 hu⟩
  · rintro ⟨ht, u, back, found⟩
    have hu := get?_eq_some_iff.1 found
    have origin : u.Regular := regular _ hu
    exact ⟨v, ⟨(u, v), hu, t, (origin.addSeconds?_neg ht).1 back, rfl⟩,
      defined?_of_mem (p := (u, v)) hu⟩

theorem Within.moved (regular : s.Within Instant.Regular) (delta : Int) :
    (s.moved delta).Within Instant.Regular := by
  rintro ⟨t, v⟩ hp
  have found := get?_eq_some_iff.2 hp
  rw [get?_moved regular, Option.ite_none_right_eq_some] at found
  exact found.1

/-- The first series is what a window leaves of the second one; both are filled by constants only, and no
    point lies in a leap second. -/
structure Cut (w : Window) (s s' : Series) : Prop where
  options : s.options = s'.options
  pointwise : s.options.Pointwise
  value : ∀ t, s.get? t = if w.contains t then s'.get? t else none
  regular : s'.Within Instant.Regular

theorem Cut.agreeAt (h : Cut w s s') (inside : w.contains t = true) : AgreeAt t s s' :=
  ⟨h.options, h.pointwise, by rw [h.value, if_pos inside]⟩

theorem Cut.mem (h : Cut w s s') {p : Instant × Float} (hp : p ∈ s.points) :
    w.contains p.1 = true ∧ p ∈ s'.points := by
  have found := get?_eq_some_iff.2 (show (p.1, p.2) ∈ s.points from hp)
  rw [h.value, Option.ite_none_right_eq_some] at found
  exact ⟨found.1, get?_eq_some_iff.1 found.2⟩

theorem Cut.inside (h : Cut w s s') : s.Within (fun t => w.contains t) :=
  fun _ hp => (h.mem hp).1

theorem Cut.regular_left (h : Cut w s s') : s.Within Instant.Regular :=
  fun _ hp => h.regular _ (h.mem hp).2

theorem Cut.eq_restrict (h : Cut w s s') : s = s'.restrict w :=
  ext_get? h.options (fun t => by rw [h.value, get?_restrict])

/-- It is enough that the series agree in the window and that the first one ends with it. -/
theorem Cut.of_agree (options : s.options = s'.options) (pointwise : s.options.Pointwise)
    (agree : ∀ t, w.contains t = true → s.get? t = s'.get? t) (inside : s.Within (fun t => w.contains t))
    (regular : s'.Within Instant.Regular) : Cut w s s' where
  options := options
  pointwise := pointwise
  value t := by
    split
    · rename_i member
      exact agree t member
    · rename_i outside
      exact inside.get?_eq_none outside
  regular := regular

/-- Series that are made of points have no options. -/
theorem Cut.ofPoints {points points' : List (Instant × Float)}
    (agree : ∀ t, w.contains t = true →
      AgreeAt t (Series.ofPoints points) (Series.ofPoints points'))
    (inside : (Series.ofPoints points).Within (fun t => w.contains t))
    (regular : (Series.ofPoints points').Within Instant.Regular) :
    Cut w (Series.ofPoints points) (Series.ofPoints points') := by
  refine .of_agree ?_ ?_ (fun t member => (agree t member).value) inside regular
  · rw [options_ofPoints, options_ofPoints]
  · rw [options_ofPoints]
    exact pointwise_default

theorem Cut.all_agree (h : List.Forall₂ (Cut w) ss ss') (inside : w.contains t = true) :
    List.Forall₂ (AgreeAt t) ss ss' :=
  h.imp fun _ _ h => h.agreeAt inside

theorem Cut.all_inside (h : List.Forall₂ (Cut w) ss ss') :
    ∀ s ∈ ss, s.Within (fun t => w.contains t) :=
  forall_of_forall₂ (h.imp fun _ _ h => h.inside)

theorem Cut.all_regular (h : List.Forall₂ (Cut w) ss ss') : ∀ s ∈ ss', s.Within Instant.Regular :=
  forall_of_forall₂ (h.flip.imp fun _ _ h => h.regular)

/-- The operations that look at one instant at a time may be done before or after the window is cut out. -/
theorem closed_cut (w : Window) : Closed (Cut w) where
  mapValues h f := .of_agree h.options h.pointwise
    (fun t member => ((closed_agreeAt t).mapValues (h.agreeAt member) f).value)
    (h.inside.mapValues f) (h.regular.mapValues f)
  retain h keep := .of_agree h.options h.pointwise
    (fun t member => ((closed_agreeAt t).retain (h.agreeAt member) keep).value)
    (h.inside.retain keep) (h.regular.retain keep)
  strict h f := .ofPoints (fun t member => (closed_agreeAt t).strict (Cut.all_agree h member) f)
    (Within.strict (Cut.all_inside h) f) (Within.strict (Cut.all_regular h) f)
  lenient h f skip := .ofPoints
    (fun t member => (closed_agreeAt t).lenient (Cut.all_agree h member) f skip)
    (Within.lenient (Cut.all_inside h) f skip) (Within.lenient (Cut.all_regular h) f skip)
  patch h := .ofPoints (fun t member => (closed_agreeAt t).patch (Cut.all_agree h member))
    (Within.patch (Cut.all_inside h)) (Within.patch (Cut.all_regular h))

/-- A shift moves the window before onto the window. -/
theorem Cut.moved {delta : Int} (bounds : w.Regular) (h : Cut (Operator.windowBefore w delta) s s') :
    Cut w ((s.moved delta).restrict w) ((s'.moved delta).restrict .all) := by
  have everywhere : (s'.moved delta).restrict .all = s'.moved delta :=
    ext_get? rfl (fun t => by rw [get?_restrict, if_pos (Window.contains_all t)])
  rw [everywhere]
  refine .of_agree h.options h.pointwise (fun t member => ?_) (within_restrict _ _)
    (h.regular.moved delta)
  rw [get?_restrict, if_pos member, get?_moved h.regular_left, get?_moved h.regular]
  by_cases ht : t.Regular
  · rw [if_pos ht, if_pos ht]
    cases back : t.addSeconds? (-delta) with
    | none => rfl
    | some u =>
        rw [Option.bind_some, Option.bind_some, h.value,
          if_pos (Window.contains_windowBefore bounds ht back member)]
  · rw [if_neg ht, if_neg ht]

end Series

namespace Operator

/-- The operators that look at one instant at a time, or move it. -/
def instantwise : List String :=
  ["series", "+", "*", "/", "**", "add", "mul", "div", "min", "max", "priority", "row-mean", "row-min",
    "row-max", "std", "clip", "slice", "time-shifted", "asof", "date", "today", "shifted",
    "start-of-month", "end-of-month"]

theorem pushdown_of_instantwise : ∀ o ∈ builtins, o.name ∈ instantwise →
    o.pushdown = true ∨ o.name ∈ [timeShifted.name, asOf.name, today.name] := by
  decide +kernel

end Operator

/-- An application of such an operator; what it reads by name is filled by a constant at most. -/
structure Application.Instantwise (call : Call) : Prop where
  operator : call.op ∈ Operator.instantwise
  keywords : call.op = "series" → call.FillsPointwise

namespace Env

variable {env : Env} {catalog : Catalog} {n n' : Nat} {context : Context} {call : Call} {e : Expr}

/-- Everything that is evaluated with an expression is made of operators that look at one instant at a time,
    or move it. -/
def Instantwise (env : Env) (catalog : Catalog) (e : Expr) : Prop :=
  ∀ tree, env.Opens catalog e tree → ∀ call ∈ tree.calls, call.Instantwise

theorem hereditary_instantwise : env.Hereditary catalog (env.Instantwise catalog) :=
  hereditary_calls Application.Instantwise

theorem Instantwise.self (h : env.Instantwise catalog (.call call)) : call.Instantwise :=
  h _ (.self _) call (Expr.mem_calls_self call)

theorem instantwise_cases (builtin : env.registry = .builtin) (h : call.Instantwise) {o : Operator}
    (found : env.registry.get? call.op = some o) : o = Operator.series ∨ o = Operator.today ∨
      o = Operator.timeShifted ∨ o = Operator.asOf ∨ ∃ run, o.Plain run ∧ o.pushdown = true := by
  have known : o ∈ Operator.builtins ∧ o.name = call.op := by
    rw [builtin] at found
    exact Registry.builtin_get? found
  rcases Operator.pushdown_of_instantwise o known.1 (known.2 ▸ h.operator) with pushdown | moving
  · have any : (env.registry.get? call.op).any Operator.pushdown = true := by
      rw [found, Option.any_some, pushdown]
    exact (pushdown_cases builtin found any).imp_right fun plain => .inr (.inr (.inr plain))
  · have same : ∀ p ∈ Operator.builtins, o.name = p.name → o = p := by
      intro p hp name
      have found' := Registry.builtin_get?_of_mem hp
      rw [← name, known.2, ← builtin, found] at found'
      exact Option.some.inj found'
    simp only [List.mem_cons, List.not_mem_nil, or_false] at moving
    rcases moving with name | name | name
    · exact .inr (.inr (.inl (same _ (by simp [Operator.builtins]) name)))
    · exact .inr (.inr (.inr (.inl (same _ (by simp [Operator.builtins]) name))))
    · exact .inr (.inl (same _ (by simp [Operator.builtins]) name))

/-- No value date in what is read by name lies in a leap second. -/
structure Regular (env : Env) : Prop where
  store : ∀ name s, env.store.find? name = some s → ∀ p ∈ s.points, p.1.Regular
  leaves : ∀ name s, Sorted.get? name env.leaves = some s → s.Within Instant.Regular

/-- Over the window of a context an expression has, so many levels down, what the window leaves of what it has
    over all instants. -/
def CutsAt (env : Env) (catalog : Catalog) (n n' : Nat) (context : Context) (e : Expr) : Prop :=
  ∀ v v', env.Yields catalog n context e v → env.Yields catalog n' { context with window := .all } e v' →
    Value.Related (Series.Cut context.window) v v'

theorem CutsAt.series {s s' : Series} (h : env.CutsAt catalog n n' context e)
    (yields : env.Yields catalog n context e (.series s))
    (yields' : env.Yields catalog n' { context with window := .all } e (.series s')) :
    Series.Cut context.window s s' := by
  cases h _ _ yields yields' with
  | scalar scalar => cases scalar
  | series cut => exact cut

/-- What is read by name in a window and everywhere. -/
theorem Fetches.cut (regular : env.Regular) {name : String} {s s' : Series}
    (formulas : ∀ tree, Sorted.get? name env.leaves = none → catalog name = .ok (some tree) →
      env.CutsAt catalog n n' context tree)
    (h : env.Fetches catalog n context name s)
    (h' : env.Fetches catalog n' { context with window := .all } name s') :
    (∀ t, s.get? t = if context.window.contains t then s'.get? t else none) ∧
      s'.Within Instant.Regular := by
  cases h with
  | leaf given =>
      cases h' with
      | leaf given' =>
          cases given.symm.trans given'
          refine ⟨fun t => ?_, (regular.leaves name _ given).retain _⟩
          rw [Series.get?_restrict, Series.get?_restrict, if_pos (Window.contains_all t)]
      | stored free => cases given.symm.trans free
      | formula free => cases given.symm.trans free
  | stored free unnamed found =>
      cases h' with
      | leaf given => cases given.symm.trans free
      | stored _ _ found' =>
          obtain ⟨stored, known, rfl⟩ := Option.map_eq_some_iff.1 found
          obtain ⟨stored', known', rfl⟩ := Option.map_eq_some_iff.1 found'
          cases known.symm.trans known'
          refine ⟨fun t => ?_, ?_⟩
          · rw [StoredSeries.get?_readAt, StoredSeries.get?_readAt, if_pos (Window.contains_all t)]
          · rintro ⟨t, x⟩ hp
            have here := Series.get?_eq_some_iff.2 hp
            rw [StoredSeries.get?_read, if_pos (Window.contains_all t)] at here
            obtain ⟨_, inside, -⟩ := Option.bind_eq_some_iff.1 here
            obtain ⟨history, inside, -⟩ := Option.bind_eq_some_iff.1 inside
            exact regular.store name _ known _ (Sorted.mem_of_get? inside)
      | formula _ named => cases unnamed.symm.trans named
  | formula free named yields =>
      cases h' with
      | leaf given => cases given.symm.trans free
      | stored _ unnamed => cases unnamed.symm.trans named
      | formula _ named' yields' =>
          cases named.symm.trans named'
          have cut := (formulas _ free named).series yields yields'
          refine ⟨fun t => ?_, cut.regular.retain _⟩
          rw [Series.get?_restrict, Series.get?_restrict, if_pos (Window.contains_all t), cut.value]
          split <;> rfl

/-- A series that is read by name is cut as its formula is, whatever number it is filled with. -/
theorem CutsAt.readSeries (builtin : env.registry = .builtin) (regular : env.Regular)
    (fills : call.FillsPointwise) (found : env.registry.get? call.op = some Operator.series)
    (arguments : ∀ e ∈ call.arguments, env.CutsAt catalog n n' context e)
    (formulas : ∀ name ∈ (Expr.call call).seriesNames, ∀ tree, Sorted.get? name env.leaves = none →
      catalog name = .ok (some tree) → env.CutsAt catalog n n' context tree) :
    env.CutsAt catalog (n + 1) (n' + 1) context (.call call) := by
  intro v v' h h'
  obtain ⟨args, name, s, gathers, text, fetches, rfl⟩ := h.series found
  obtain ⟨args', name', s', gathers', text', fetches', rfl⟩ := h'.series found
  have related := gathers.related gathers' (by decide) arguments
  cases related.textAt text text'
  have op : call.op = "series" := ((operator_cases builtin found).1).symm
  obtain ⟨whole, pointwise⟩ := gathers.pointwise builtin fills
  have reads := Expr.mem_seriesNames_self (gathers.seriesName? builtin op text)
  obtain ⟨value, dates⟩ := fetches.cut regular (formulas name reads) fetches'
  apply Value.Related.series
  rw [← Operator.shaped_related related, Operator.shaped, Operator.shaped, whole]
  exact ⟨rfl, pointwise, value, dates⟩

/-- A shift reads over the window before. -/
theorem CutsAt.shiftSeries (bounds : context.window.Regular)
    (found : env.registry.get? call.op = some Operator.timeShifted)
    (arguments : ∀ e ∈ call.arguments, env.CutsAt catalog n n' context e)
    (moved : ∀ e ∈ call.arguments, ∀ delta, env.CutsAt catalog n n'
      { context with window := Operator.windowBefore context.window delta } e) :
    env.CutsAt catalog (n + 1) (n' + 1) context (.call call) := by
  intro v v' h h'
  obtain ⟨delta, e, s, s', first, yields, yields', rfl, rfl⟩ := h.timeShifted_alike found found
    (fun he h h' => arguments _ he _ _ h h') h'
  have cut := (moved e (Application.mem_arguments_of_getElem? first) delta).series yields yields'
  exact .series (cut.moved bounds)

/-- A revision is the same in both contexts. -/
theorem CutsAt.readAsOf (found : env.registry.get? call.op = some Operator.asOf)
    (arguments : ∀ e ∈ call.arguments, env.CutsAt catalog n n' context e)
    (revised : ∀ e ∈ call.arguments, ∀ revision, env.CutsAt catalog n n'
      { context with revision := some revision } e) :
    env.CutsAt catalog (n + 1) (n' + 1) context (.call call) := by
  intro v v' h h'
  obtain ⟨dated, date, revision, e, s, first, yields, coerced, second, read, rfl⟩ := h.asOf found
  obtain ⟨dated', date', revision', e', s', first', yields', coerced', second', read', rfl⟩ :=
    h'.asOf found
  cases first.symm.trans first'
  cases second.symm.trans second'
  have same : date = date' := by
    rcases (arguments dated (Application.mem_arguments_of_getElem? first) _ _ yields
      yields').eq_or_series with same | ⟨_, _, rfl, -⟩
    · exact same
    · cases coerced
  subst same
  cases coerced.symm.trans coerced'
  exact .series ((revised e (Application.mem_arguments_of_getElem? second) revision).series read read')

/-- Over a window an expression has what the window leaves of its value over all instants. -/
theorem cutsAt (builtin : env.registry = .builtin) (regular : env.Regular)
    (bounds : context.window.Regular) (instantwise : env.Instantwise catalog e) (levels levels' : Nat) :
    env.CutsAt catalog levels levels' context e := by
  intro v v' h h'
  refine Yields.relatedIn (S := fun context _ => Series.Cut context.window)
    (Q := fun c c' e => c.window.Regular ∧ c' = { c with window := .all } ∧ env.Instantwise catalog e)
    ?_ ⟨bounds, rfl, instantwise⟩ h h'
  rintro n n' context _ call v v' ⟨bounds, rfl, instantwise⟩ ih h h'
  have below : ∀ (context : Context) e, context.window.Regular → env.Instantwise catalog e →
      env.CutsAt catalog n n' context e :=
    fun context e bounds instantwise _ _ h h' => ih ⟨bounds, rfl, instantwise⟩ h h'
  have argument : ∀ e ∈ call.arguments, env.Instantwise catalog e :=
    fun e he => hereditary_instantwise.argument instantwise he
  have arguments : ∀ e ∈ call.arguments, env.CutsAt catalog n n' context e :=
    fun e he => below context e bounds (argument e he)
  obtain ⟨_, o, found, -⟩ := h.call
  rcases instantwise_cases builtin instantwise.self found with rfl | rfl | rfl | rfl |
    ⟨run, plain, pushdown⟩
  · have op : call.op = "series" := ((operator_cases builtin found).1).symm
    refine CutsAt.readSeries builtin regular (instantwise.self.keywords op) found arguments ?_ _ _ h h'
    exact fun name reads tree free named =>
      below context tree bounds (hereditary_instantwise.formula instantwise reads free named)
  · rw [h.today found, h'.today found]
    exact .scalar rfl
  · refine CutsAt.shiftSeries bounds found arguments (fun e he delta => ?_) _ _ h h'
    exact below _ e (bounds.windowBefore delta) (argument e he)
  · refine CutsAt.readAsOf found arguments (fun e he revision => ?_) _ _ h h'
    exact below _ e bounds (argument e he)
  · obtain ⟨args, gathers, made⟩ := h.plain found plain
    obtain ⟨args', gathers', made'⟩ := h'.plain found plain
    have related := gathers.related gathers' plain.defaults arguments
    exact plain.pointwise pushdown (Series.closed_cut context.window) args args' v v' related made made'

/-- To evaluate an expression over a window is to evaluate it over all instants and to cut the window out of
    the result, its bounds included, as long as it is made of operators that look at one instant at a time
    or move it. -/
theorem evaluate_window (builtin : env.registry = .builtin) (regular : env.Regular)
    (bounds : context.window.Regular) (instantwise : env.Instantwise catalog e) {s s' : Series}
    (h : (env.evaluate context e).run catalog = .ok (.series s))
    (h' : (env.evaluate { context with window := .all } e).run catalog = .ok (.series s')) :
    s = s'.restrict context.window := by
  have yields : env.Yields catalog env.maxDepth context e (.series s) := ⟨.root, "", h⟩
  have yields' : env.Yields catalog env.maxDepth { context with window := .all } e (.series s') :=
    ⟨.root, "", h'⟩
  exact ((cutsAt builtin regular bounds instantwise _ _).series yields yields').eq_restrict

/-- The series `x` laid over the formula that moves it, with nothing for a missing value. -/
def overlaid : Expr :=
  .call ⟨"add", [.call ⟨"series", [.literal (.str "f")], [("fill", .literal (.int 0))]⟩,
    .call ⟨"series", [.literal (.str "x")], [("fill", .literal (.int 0))]⟩], []⟩

theorem instantwise_overlaid : Staircase.corrected.Instantwise moving overlaid := by
  have checked : ∀ {call : Call}, call.op ∈ Operator.instantwise ∧
      Staircase.keywordsArePointwise call = true → call.Instantwise :=
    fun h => ⟨h.1, fun _ => Staircase.keywordsArePointwise_fills h.2⟩
  have outer : ∀ call ∈ overlaid.calls, call.op ∈ Operator.instantwise ∧
      Staircase.keywordsArePointwise call = true := by decide +kernel
  have inner : ∀ name ∈ overlaid.seriesNames, ∀ tree, moving name = .ok (some tree) →
      tree.seriesNames = ["x"] ∧ ∀ call ∈ tree.calls, call.op ∈ Operator.instantwise ∧
        Staircase.keywordsArePointwise call = true := by
    have names : overlaid.seriesNames = ["f", "x"] := by decide +kernel
    rw [names]
    intro name hname tree named
    rcases List.mem_pair.1 hname with rfl | rfl
    · cases named
      decide +kernel
    · cases named
  intro tree opens
  cases opens with
  | self => exact fun call hcall => checked (outer call hcall)
  | formula mentions _ named rest =>
      obtain ⟨names, calls⟩ := inner _ mentions _ named
      cases rest with
      | self => exact fun call hcall => checked (calls call hcall)
      | formula mentions _ named _ =>
          rw [names] at mentions
          cases List.mem_singleton.1 mentions
          cases named

/-- The window ends with the first moved point. Its other bound is the first instant of all, which cannot be
    moved back. -/
theorem evaluate_window_overlaid :
    let last : Instant := { seconds := 80, nanos := 0 }
    let w : Window := ⟨some { seconds := -8334601228800, nanos := 0 }, some last⟩
    let now : Instant := { seconds := 99, nanos := 0 }
    ∃ s s', (Staircase.corrected.evaluate ⟨w, none, now⟩ overlaid).run moving = .ok (.series s) ∧
      (Staircase.corrected.evaluate ⟨.all, none, now⟩ overlaid).run moving = .ok (.series s') ∧
      s'.points = [({ seconds := 20, nanos := 0 }, 5), ({ seconds := 30, nanos := 0 }, 2), (last, 5),
        ({ seconds := 90, nanos := 0 }, 2)] ∧
      (Operator.windowBefore w 60).lower = none ∧ s = s'.restrict w := by
  intro last w now
  have cut : ((Staircase.corrected.evaluate ⟨w, none, now⟩ overlaid).run moving).toOption.bind
      Value.series? ≠ none := by decide +kernel
  have whole : ((Staircase.corrected.evaluate ⟨.all, none, now⟩ overlaid).run moving).toOption.bind
      (fun v => v.series?.map Series.points) = some [({ seconds := 20, nanos := 0 }, 5),
        ({ seconds := 30, nanos := 0 }, 2), (last, 5), ({ seconds := 90, nanos := 0 }, 2)] := by
    decide +kernel
  obtain ⟨s, hs⟩ := Option.ne_none_iff_exists'.1 cut
  obtain ⟨v, hv, series⟩ := Option.bind_eq_some_iff.1 hs
  obtain ⟨v', hv', series'⟩ := Option.bind_eq_some_iff.1 whole
  obtain ⟨s', series', points⟩ := Option.map_eq_some_iff.1 series'
  cases Value.eq_of_series? series
  cases Value.eq_of_series? series'
  have regular : Staircase.corrected.Regular :=
    ⟨fun name s found => (by decide +kernel : ∀ p ∈ Staircase.corrected.store.entries,
      ∀ q ∈ p.2.points, q.1.Regular) _ (Sorted.mem_of_get? found), nofun⟩
  have bounds : w.Regular := by
    constructor <;> decide
  have evaluated := toOption_eq_some_iff.1 hv
  have evaluated' := toOption_eq_some_iff.1 hv'
  have same := evaluate_window (by simp only [Staircase.corrected]) regular bounds instantwise_overlaid
    evaluated evaluated'
  exact ⟨s, s', evaluated, evaluated', points, by decide +kernel, same⟩

end Env

end SeriesLang
