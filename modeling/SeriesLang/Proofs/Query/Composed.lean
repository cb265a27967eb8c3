import SeriesLang.Proofs.Query.Expanded
import SeriesLang.Proofs.Query.Past
import SeriesLang.Proofs.Series.Computed

/-! # What an evaluated series is made of

Every number in an evaluated series was read under a name, filled in by a constant, or computed of such numbers.
Whichever operators computed it, the points for which they arrived at NaN were left out on the way, one operation
after the other, so that none of them ever meets such a point.
-/

namespace SeriesLang

namespace Env

variable {env : Env} {catalog : Catalog} {context : Context} {n levels : Nat}

/-- How the series of an expression is put together. It is read under a name that stands there, filled in by a
    constant, or taken from an argument; the operations compute numbers of such series and keep those that are
    not NaN. -/
inductive Composed (env : Env) (catalog : Catalog) : Context → Expr → Series → Prop
  | leaf {context call name s} (named : call.seriesName? = some name)
      (given : Sorted.get? name env.leaves = some s) : Composed env catalog context (.call call) s
  | stored {context call name stored s} (named : call.seriesName? = some name)
      (free : Sorted.get? name env.leaves = none) (unnamed : catalog name = .ok none)
      (found : env.store.find? name = some stored)
      (kept : Series.Keeps (fun t => if context.window.contains t then
        (stored.historyAt t).valueAt? context.revision else none) s) :
      Composed env catalog context (.call call) s
  | formula {context call name tree s} (named : call.seriesName? = some name)
      (free : Sorted.get? name env.leaves = none) (defined : catalog name = .ok (some tree))
      (inner : Composed env catalog context tree s) : Composed env catalog context (.call call) s
  | constant {context call f first last grid more v s} (op : call.op = "constant")
      (generated : Operator.gridBetween f first last = .ok (grid, more))
      (kept : Series.Keeps (fun t => if t ∈ grid then some v else none) s) :
      Composed env catalog context (.call call) s
  | nothing {context call s} (op : call.op = "constant") (kept : Series.Keeps (fun _ => none) s) :
      Composed env catalog context (.call call) s
  | moved {context call e delta inner s} (op : call.op = "time-shifted") (he : e ∈ call.arguments)
      (before : Composed env catalog
        { context with window := Operator.windowBefore context.window delta } e inner)
      (kept : Series.Keeps (fun t => Series.latest t
        (inner.points.filterMap (fun p => (p.1.addSeconds? delta).map (·, p.2)))) s) :
      Composed env catalog context (.call call) s
  | revised {context call e revision s} (op : call.op = "asof") (he : e ∈ call.arguments)
      (inner : Composed env catalog { context with revision := some revision } e s) :
      Composed env catalog context (.call call) s
  | argument {context call e s} (he : e ∈ call.arguments) (inner : Composed env catalog context e s) :
      Composed env catalog context (.call call) s
  | computed {context e inputs numbers s} (parts : ∀ i ∈ inputs, Composed env catalog context e i)
      (computes : Series.Computes inputs numbers) (kept : Series.Keeps numbers s) :
      Composed env catalog context e s

namespace Composed

variable {e : Expr} {s : Series}

theorem single (h : env.Composed catalog context e s) : ∀ i ∈ [s], env.Composed catalog context e i := by
  simpa using h

theorem retain (h : env.Composed catalog context e s) (keep : Instant → Float → Bool) :
    env.Composed catalog context e (s.retain keep) :=
  .computed h.single (.picked s keep) (Series.keeps_of_eq (Series.get?_retain s keep))

theorem pruneLast (h : env.Composed catalog context e s) (count : Nat) :
    env.Composed catalog context e (s.pruneLast count) :=
  .computed h.single (.pruned s count)
    (Series.keeps_of_eq fun t => congrFun (Series.get?_pruneLast s count) t)

theorem withOptions (h : env.Composed catalog context e s) (options : SeriesOptions) :
    env.Composed catalog context e (s.withOptions options) := by
  refine .computed h.single (.picked s fun _ _ => true) (Series.keeps_of_eq fun t => ?_)
  show s.get? t = (s.get? t).filter (fun _ => true)
  cases s.get? t <;> rfl

theorem shaped (h : env.Composed catalog context e s) (args : Arguments) :
    env.Composed catalog context e (Operator.shaped args s) := by
  unfold Operator.shaped
  split
  · exact (h.pruneLast _).withOptions _
  · exact h.withOptions _

end Composed

/-- Every operation makes its series of computed numbers. -/
theorem closedWhole_composed (env : Env) (catalog : Catalog) (context : Context) (e : Expr) :
    Series.ClosedWhole (fun s _ => env.Composed catalog context e s) where
  mapValues h f := .computed h.single (.mapped _ f) (Series.keeps_mapValues _ f)
  retain h keep := h.retain keep
  strict h f := .computed (Series.forall_of_forall₂ h) (.strict _ f) (Series.keeps_strict f _)
  lenient h f skip :=
    .computed (Series.forall_of_forall₂ h) (.lenient _ f skip) (Series.keeps_lenient f skip _)
  patch h := .computed (Series.forall_of_forall₂ h) (.patched _) (Series.keeps_patch _)
  resample h f a _ _ made _ := .computed h.single (.bucketed _ f a) (Series.keeps_resample made)
  rolling h count a := .computed h.single (.trailing _ count a) (Series.keeps_rolling _ count a)
  cumulative h := .computed h.single (.total _) (Series.keeps_cumulative _)

theorem Fetches.composed {call : Call} {name : String} {s : Series} (named : call.seriesName? = some name)
    (below : ∀ {tree s}, env.Yields catalog n context tree (.series s) → env.Composed catalog context tree s)
    (h : env.Fetches catalog n context name s) : env.Composed catalog context (.call call) s := by
  cases h with
  | leaf given => exact Composed.retain (.leaf named given) _
  | formula free defined yields => exact Composed.retain (.formula named free defined (below yields)) _
  | stored free unnamed found =>
      obtain ⟨stored, known, rfl⟩ := Option.map_eq_some_iff.1 found
      refine .stored named free unnamed known (Series.keeps_iff.2 fun t => ?_)
      rw [StoredSeries.get?_readAt]
      split <;> rfl

theorem composed_made {call : Call} (op : call.op = "constant") {args : Arguments} {s : Series}
    (h : Operator.Made args context s) : env.Composed catalog context (.call call) s := by
  cases h with
  | early _ _ => exact .nothing op (Series.keeps_of_eq fun _ => rfl)
  | late _ _ _ _ _ _ _ filled =>
      unfold Operator.constantOver at filled
      split at filled
      · obtain ⟨⟨grid, more⟩, generated, rfl⟩ := ok_of_map filled
        exact .constant op generated (Series.keeps_grid grid _)
      · cases filled
        exact .nothing op (Series.keeps_of_eq fun _ => rfl)

/-- An expression has one value. -/
theorem Yields.unique (builtin : env.registry = .builtin) {e : Expr} {v v' : Value}
    (h : env.Yields catalog n context e v) (h' : env.Yields catalog n context e v') : v = v' := by
  obtain ⟨path, slot, evaluated⟩ := h'
  exact Except.ok.inj ((refines_self builtin n e context v h n (Nat.le_refl n) path slot).symm.trans evaluated)

/-- Every series that an expression evaluates to is composed of what is read and filled in there. -/
theorem Yields.composed (builtin : env.registry = .builtin) {e : Expr} {s : Series}
    (h : env.Yields catalog levels context e (.series s)) : env.Composed catalog context e s := by
  induction levels generalizing context e s with
  | zero =>
      obtain ⟨call, rfl⟩ := h.isCall
      exact absurd h not_yields_zero
  | succ n ih =>
      obtain ⟨call, rfl⟩ := h.isCall
      obtain ⟨_, o, found, -⟩ := h.call
      obtain ⟨op, known⟩ := operator_cases builtin found
      rcases known with rfl | rfl | rfl | rfl | rfl | ⟨run, plain⟩
      · obtain ⟨args, name, inner, gathers, text, fetched, same⟩ := h.series found
        cases same
        exact (fetched.composed (gathers.seriesName? builtin op.symm text) ih).shaped args
      · obtain ⟨args, _, -, made, same⟩ := h.constant found
        cases same
        exact composed_made op.symm made
      · cases h.today found
      · obtain ⟨_, _, _, _, delta, e, inner, -, -, -, -, -, first, yields, same⟩ := h.timeShifted found
        cases same
        have he := Application.mem_arguments_of_getElem? first
        exact Composed.retain (.moved op.symm he (ih yields) (Series.keeps_moved inner delta)) _
      · obtain ⟨_, _, revision, e, _, -, -, -, second, yields, same⟩ := h.asOf found
        cases same
        exact .revised op.symm (Application.mem_arguments_of_getElem? second) (ih yields)
      · obtain ⟨args, gathers, made⟩ := h.plain found plain
        -- the arguments are related to themselves, so that the relation says of each series what it is made of
        have related : args.Related (fun s _ => env.Composed catalog context (.call call) s) args := by
          refine gathers.related gathers plain.defaults fun e he v v' h h' => ?_
          cases h.unique builtin h'
          cases v with
          | series s => exact .series (.argument he (ih h))
          | _ => exact .scalar rfl
        cases plain.whole (closedWhole_composed env catalog context (.call call)) args args _ _ related
          made made with
        | scalar scalar => cases scalar
        | series composed => exact composed

/-- Whatever edits a series goes through, its points list the map that they make, each instant once, in the order
    of time and without NaN; its options are those that the edits leave, and as many points as should be are
    dropped from its end. The same is true of every series that an expression evaluates to, because it is
    composed of series that leave out the NaN among the numbers that were computed for them. -/
theorem series_tabulated :
    (∀ (s : Series) (edits : List Series.Edit),
      Series.Tabulates (s.edited edits).points (edits.foldl Series.Edit.effect s.get?) ∧
      (s.edited edits).get? = edits.foldl Series.Edit.effect s.get? ∧
      (s.edited edits).options = edits.foldl Series.Edit.optionsAfter s.options ∧
      ∀ count, ∃ dropped, (s.edited edits).points = ((s.edited edits).pruneLast count).points ++ dropped ∧
        dropped.length = min count (s.edited edits).size) ∧
    ∀ (env : Env) (catalog : Catalog) (context : Context) (e : Expr) (s : Series),
      env.registry = .builtin → (env.evaluate context e).run catalog = .ok (.series s) →
      Series.Tabulates s.points s.get? ∧ env.Composed catalog context e s := by
  constructor
  · intro s edits
    obtain ⟨values, options⟩ := s.edited_eq edits
    refine ⟨?_, values, options, (s.edited edits).exists_pruned⟩
    rw [← values]
    exact (s.edited edits).tabulates
  · intro env catalog context e s builtin evaluated
    exact ⟨s.tabulates, Yields.composed builtin ⟨.root, "", evaluated⟩⟩

/-- Two series that are infinite at 0, one upwards and one downwards, and add up to 5 at 60. -/
def opposed : Env where
  registry := .builtin
  store := (({} : Store).insert "up" { seconds := 10, nanos := 0 }
    [({ seconds := 0, nanos := 0 }, Decimal.infinity), ({ seconds := 60, nanos := 0 }, 2)]).insert "down"
      { seconds := 10, nanos := 0 }
      [({ seconds := 0, nanos := 0 }, -Decimal.infinity), ({ seconds := 60, nanos := 0 }, 3)]

/-- Their sum. -/
def opposedSum : Expr :=
  .call ⟨"add", [.series "up", .series "down"], []⟩

/-- Both series have a point at 0, but their sum does not. -/
theorem series_tabulated_opposed :
    let context : Context := ⟨.all, none, { seconds := 20, nanos := 0 }⟩
    ∃ s, (opposed.evaluate context opposedSum).run .empty = .ok (.series s) ∧
      s.points = [({ seconds := 60, nanos := 0 }, 5)] ∧ Series.Tabulates s.points s.get? ∧
      opposed.Composed .empty context opposedSum s := by
  intro context
  have evaluated : ((opposed.evaluate context opposedSum).run .empty).toOption.bind (fun v =>
      v.series?.map Series.points) = some [({ seconds := 60, nanos := 0 }, 5)] := by decide +kernel
  obtain ⟨v, evaluated, lists⟩ := Option.bind_eq_some_iff.1 evaluated
  obtain ⟨s, series, points⟩ := Option.map_eq_some_iff.1 lists
  cases Value.eq_of_series? series
  have evaluated := toOption_eq_some_iff.1 evaluated
  have builtin : opposed.registry = .builtin := by simp only [opposed]
  exact ⟨s, evaluated, points,
    series_tabulated.2 opposed .empty context opposedSum s builtin evaluated⟩

end Env

end SeriesLang
