import SeriesLang.Proofs.Query.Scalars
import SeriesLang.Proofs.Store.History
import SeriesLang.Query.Dependency

/-! # Between two revisions

The value of an expression depends on the revision of the query only through the insertion dates of what it
reads and the revision dates of constants. At two revisions that come after the same of these dates it is the
same.
-/

namespace SeriesLang

/-- Equal series. -/
theorem Series.closedWhole_eq : Series.ClosedWhole (· = ·) where
  mapValues h _ := by rw [h]
  retain h _ := by rw [h]
  strict h _ := by rw [List.forall₂_eq_eq_eq] at h; rw [h]
  lenient h _ _ := by rw [List.forall₂_eq_eq_eq] at h; rw [h]
  patch h := by rw [List.forall₂_eq_eq_eq] at h; rw [h]
  resample h _ _ _ _ made made' := by
    rw [h, made'] at made
    exact (Except.ok.inj made).symm
  rolling h _ _ := by rw [h]
  cumulative h := by rw [h]

theorem Value.Related.eq {v v' : Value} (h : Value.Related (· = ·) v v') : v = v' := by
  cases h with
  | scalar _ => rfl
  | series h => rw [h]

namespace Registry

variable {r : Registry} {name : String}

theorem mem_referencesOfArgs {es : List Expr} :
    name ∈ r.referencesOfArgs es ↔ ∃ e ∈ es, name ∈ r.references e := by
  induction es with
  | nil => simp [referencesOfArgs]
  | cons e es ih => simp [referencesOfArgs, ih]

theorem mem_referencesOfKwargs {es : List (String × Expr)} :
    name ∈ r.referencesOfKwargs es ↔ ∃ p ∈ es, name ∈ r.references p.2 := by
  induction es with
  | nil => simp [referencesOfKwargs]
  | cons p es ih =>
      obtain ⟨key, e⟩ := p
      simp [referencesOfKwargs, ih]

theorem references_of_finder {call : Call} {find : Call → List String}
    (h : (r.get? call.op).bind Operator.finder = some find) :
    r.references (.call call) = find call := by
  obtain ⟨op, args, kwargs⟩ := call
  simp only at h
  simp only [references, h]

theorem mem_references_of_argument {call : Call} {e : Expr}
    (h : (r.get? call.op).bind Operator.finder = none) (he : e ∈ call.arguments)
    (hname : name ∈ r.references e) : name ∈ r.references (.call call) := by
  obtain ⟨op, args, kwargs⟩ := call
  simp only at h
  simp only [references, h, List.mem_append, mem_referencesOfArgs, mem_referencesOfKwargs]
  rcases List.mem_append.1 he with he | he
  · exact .inl ⟨e, he, hname⟩
  · obtain ⟨p, hp, rfl⟩ := List.mem_map.1 he
    exact .inr ⟨p, hp, hname⟩

end Registry

namespace Env

/-- The dates of a set are all at which an expression may change, as long as the series of the names of
    another set change at none but these. -/
structure Covers (env : Env) (catalog : Catalog) (D : Instant → Prop) (N : String → Prop) (e : Expr) :
    Prop where
  steady : e.Steady
  reads : ∀ name ∈ env.registry.references e, N name
  revisions : ∀ call ∈ e.calls, call.op = "constant" → ∀ fifth, call.args[4]? = some fifth →
    ∀ levels context v t, env.Yields catalog levels context fifth v →
      ParamType.timestamp.coerce? v = some (.timestamp t) → D t

/-- The series of the names of a set change at no other dates than those of another set. -/
structure Settled (env : Env) (catalog : Catalog) (D : Instant → Prop) (N : String → Prop) : Prop where
  stored : ∀ name, N name → catalog name = .ok none → ∀ s, env.store.find? name = some s →
    ∀ d ∈ s.insertionDates, D d
  formulas : ∀ name, N name → ∀ tree, catalog name = .ok (some tree) → env.Covers catalog D N tree

variable {env : Env} {catalog : Catalog} {D : Instant → Prop} {N : String → Prop}
  {n n' levels levels' : Nat} {w : Window} {now r r' : Instant}

theorem Covers.argument {call : Call} (h : env.Covers catalog D N (.call call))
    (finder : (env.registry.get? call.op).bind Operator.finder = none) {e : Expr}
    (he : e ∈ call.arguments) : env.Covers catalog D N e where
  steady := h.steady.argument he
  reads name hname := h.reads name (Registry.mem_references_of_argument finder he hname)
  revisions inner hinner := h.revisions inner (Expr.mem_calls_of_argument he hinner)

/-- The name that `series` reads is found in its application. -/
theorem Gathers.mem_references (builtin : env.registry = .builtin) {context : Context} {call : Call}
    (found : env.registry.get? call.op = some Operator.series)
    {args : Arguments} {name : String}
    (h : env.Gathers catalog n context Operator.series call args) (text : args.textAt 0 = .ok name) :
    call.seriesName? = some name ∧ name ∈ env.registry.references (.call call) := by
  have op : call.op = "series" := by
    rw [builtin] at found
    exact (Registry.builtin_get? found).2.symm
  have finder : (env.registry.get? call.op).bind Operator.finder = some Operator.firstName := by
    rw [found]
    rfl
  have given := h.seriesName? builtin op text
  refine ⟨given, ?_⟩
  rw [Application.seriesName?_of_op op] at given
  rw [Registry.references_of_finder finder, Operator.firstName, given]
  exact List.mem_singleton.2 rfl

theorem Fetches.eq (built : env.store.Built) (settled : env.Settled catalog D N)
    (same : ∀ d, D d → (d ≤ r ↔ d ≤ r')) {name : String} (hname : N name) {s s' : Series}
    (follow : ∀ {tree s s'}, env.Covers catalog D N tree →
      env.Yields catalog n ⟨w, some r, now⟩ tree (.series s) →
      env.Yields catalog n' ⟨w, some r', now⟩ tree (.series s') → s = s')
    (h : env.Fetches catalog n ⟨w, some r, now⟩ name s)
    (h' : env.Fetches catalog n' ⟨w, some r', now⟩ name s') : s = s' := by
  cases h with
  | leaf given =>
      cases h' with
      | leaf given' =>
          cases given.symm.trans given'
          rfl
      | stored free' _ _ => cases given.symm.trans free'
      | formula free' _ _ => cases given.symm.trans free'
  | stored free unnamed found =>
      cases h' with
      | leaf given' => cases free.symm.trans given'
      | stored _ _ found' =>
          rw [Store.get?_congr built w
            (fun s hs d hd => same d (settled.stored name hname unnamed s hs d hd))] at found
          exact Option.some.inj (found.symm.trans found')
      | formula _ named' _ => cases unnamed.symm.trans named'
  | formula free named yields =>
      cases h' with
      | leaf given' => cases free.symm.trans given'
      | stored _ unnamed' _ => cases named.symm.trans unnamed'
      | formula _ named' yields' =>
          cases named.symm.trans named'
          rw [follow (settled.formulas name hname _ named) yields yields']

theorem made_eq {args args' : Arguments} (related : args.Related (fun _ _ => True) args')
    (same : ∀ d, args.instantAt 4 = .ok d → (d ≤ r ↔ d ≤ r')) {s s' : Series}
    (h : Operator.Made args ⟨w, some r, now⟩ s) (h' : Operator.Made args' ⟨w, some r', now⟩ s') :
    s = s' := by
  have before : ∀ {d d'}, args.instantAt 4 = .ok d → args'.instantAt 4 = .ok d' →
      (r < d ↔ r' < d') := by
    intro d d' given given'
    cases related.instantAt given given'
    have ends := same d given
    constructor
    · exact fun hlt => Instant.lt_of_not_le (fun hle => (ends.2 hle) hlt)
    · exact fun hlt => Instant.lt_of_not_le (fun hle => (ends.1 hle) hlt)
  cases h with
  | early given early =>
      cases h' with
      | early _ _ => rfl
      | late given' late' =>
          simp only [Option.any_some, decide_eq_true_eq, decide_eq_false_iff_not] at early late'
          exact absurd ((before given given').1 early) late'
  | late given late number frequency known first last filled =>
      cases h' with
      | early given' early' =>
          simp only [Option.any_some, decide_eq_true_eq, decide_eq_false_iff_not] at early' late
          exact absurd ((before given given').2 early') late
      | late _ _ number' frequency' known' first' last' filled' =>
          cases related.numberAt number number'
          cases related.textAt frequency frequency'
          cases related.instantAt first first'
          cases related.instantAt last last'
          cases known.symm.trans known'
          exact Except.ok.inj (filled.symm.trans filled')

/-- At revisions that come after the same dates an expression has one value. -/
theorem Yields.eq_of_same (builtin : env.registry = .builtin) (built : env.store.Built)
    (settled : env.Settled catalog D N) (same : ∀ d, D d → (d ≤ r ↔ d ≤ r')) {e : Expr}
    (covers : env.Covers catalog D N e) {v v' : Value}
    (h : env.Yields catalog levels ⟨w, some r, now⟩ e v)
    (h' : env.Yields catalog levels' ⟨w, some r', now⟩ e v') : v = v' := by
  apply Value.Related.eq
  refine Yields.related (Q := fun c c' e => env.Covers catalog D N e ∧
    ∃ w, c = ⟨w, some r, now⟩ ∧ c' = ⟨w, some r', now⟩) ?_ ⟨covers, w, rfl, rfl⟩ h h'
  rintro n n' _ _ call v v' ⟨covers, w, rfl, rfl⟩ ih h h'
  have scalars : ∀ e ∈ call.arguments, ∀ v v', env.Yields catalog n ⟨w, some r, now⟩ e v →
      env.Yields catalog n' ⟨w, some r', now⟩ e v' → Value.Related (fun _ _ => True) v v' :=
    fun e he _ _ h h' => h.alike builtin builtin (covers.steady.argument he) h'
  obtain ⟨_, o, found, -⟩ := h.call
  rcases steady_cases builtin covers.steady.self found with rfl | rfl | rfl | ⟨run, plain⟩
  · obtain ⟨args, name, s, gathers, text, fetched, rfl⟩ := h.series found
    obtain ⟨args', name', s', gathers', text', fetched', rfl⟩ := h'.series found
    have related := gathers.related gathers' (by decide) scalars
    cases related.textAt text text'
    have hname := covers.reads name (gathers.mem_references builtin found text).2
    have value := Fetches.eq built settled same hname (fun covers h h' =>
      Value.series.inj (ih ⟨covers, w, rfl, rfl⟩ h h').eq) fetched fetched'
    rw [value, Operator.shaped_related related]
    exact .series rfl
  · obtain ⟨args, s, gathers, made, rfl⟩ := h.constant found
    obtain ⟨args', s', gathers', made', rfl⟩ := h'.constant found
    have related := gathers.related gathers' (by decide) scalars
    have op : call.op = "constant" := by
      rw [builtin] at found
      exact (Registry.builtin_get? found).2.symm
    apply Value.Related.series
    apply made_eq related _ made made'
    intro d given
    obtain ⟨fifth, v, present, yields, coerced⟩ := gathers.revision given
    exact same d (covers.revisions call (Expr.mem_calls_self call) op fifth present _ _ v d yields coerced)
  · have finder : (env.registry.get? call.op).bind Operator.finder = none := by
      rw [found]
      rfl
    obtain ⟨delta, e, s, s', first, yields, yields', rfl, rfl⟩ := h.timeShifted_alike found found
      (fun he h h' => ih ⟨covers.argument finder he, w, rfl, rfl⟩ h h') h'
    have inside := Application.mem_arguments_of_getElem? first
    have value := (ih ⟨covers.argument finder inside, _, rfl, rfl⟩ yields yields').eq
    rw [Value.series.inj value]
    exact .series rfl
  · have finder : (env.registry.get? call.op).bind Operator.finder = none := by
      rw [found]
      exact plain.finder
    obtain ⟨args, gathers, made⟩ := h.plain found plain
    obtain ⟨args', gathers', made'⟩ := h'.plain found plain
    have related := gathers.related gathers' plain.defaults
      (fun e he v v' h h' => ih ⟨covers.argument finder he, w, rfl, rfl⟩ h h')
    exact plain.whole Series.closedWhole_eq args args' v v' related made made'

end Env

end SeriesLang
