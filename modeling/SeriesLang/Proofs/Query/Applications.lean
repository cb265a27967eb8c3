import SeriesLang.Proofs.Query.Evaluation

/-! # What each operator has done

An evaluated application of a built-in operator, by operator: a plain one has run on its arguments, `series`
has found a series by name, `constant` has filled a grid, `time-shifted` has read over a moved window, `asof`
as of another revision.
-/

namespace SeriesLang

namespace Operator

/-- A series that is read by name, as the keywords want it. -/
def shaped (args : Arguments) (s : Series) : Series :=
  (match args.intKeyword? "prune" with
    | some n => s.pruneLast (countOf n)
    | none => s).withOptions (seriesOptions args)

theorem seriesOptions_related {S : Series → Series → Prop} {args args' : Arguments}
    (h : args.Related S args') : seriesOptions args = seriesOptions args' := by
  unfold seriesOptions
  rw [h.intKeyword?, h.numberKeyword?]
  congr 1
  rcases (h.keyword "fill").eq_or_series with heq | ⟨s, s', heq, heq'⟩
  · rw [heq]
  · rw [heq, heq']
    rfl

theorem shaped_related {S : Series → Series → Prop} {args args' : Arguments}
    (h : args.Related S args') (s : Series) : shaped args s = shaped args' s := by
  rw [shaped, shaped, h.intKeyword?, seriesOptions_related h]

/-- A number at every point of a grid in a horizon. -/
def constantOver (f : Frequency) (x : Float) (horizon : Window) : Except Abort Series :=
  match horizon.lower, horizon.upper with
  | some first, some last => (gridBetween f first last).map (fun grid => .ofPoints (grid.1.map (·, x)))
  | _, _ => .ok .empty

/-- The series that `constant` makes in a context. -/
inductive Made (args : Arguments) (context : Context) : Series → Prop
  | early {revision} (given : args.instantAt 4 = .ok revision)
      (early : context.revision.any (fun r => decide (r < revision)) = true) :
      Made args context .empty
  | late {revision x text f lower upper s} (given : args.instantAt 4 = .ok revision)
      (late : context.revision.any (fun r => decide (r < revision)) = false)
      (number : args.numberAt 0 = .ok x) (frequency : args.textAt 3 = .ok text)
      (known : Frequency.ofText? text = some f) (first : args.instantAt 1 = .ok lower)
      (last : args.instantAt 2 = .ok upper)
      (filled : constantOver f x ((Window.between lower upper).intersect context.window) = .ok s) :
      Made args context s

theorem makeConstant_ok {args : Arguments} {context : Context} (sees : args.context = some context)
    {v : Value} (h : makeConstant args = .ok v) : ∃ s, v = .series s ∧ Made args context s := by
  obtain ⟨_, same, h⟩ := ok_of_bind h
  rw [Arguments.requireContext, sees] at same
  cases same
  obtain ⟨x, number, h⟩ := ok_of_bind h
  obtain ⟨revision, given, h⟩ := ok_of_bind h
  split at h
  · rename_i early
    cases h
    exact ⟨_, rfl, .early given early⟩
  · rename_i late
    obtain ⟨text, frequency, h⟩ := ok_of_bind h
    cases known : Frequency.ofText? text with
    | none =>
        rw [known] at h
        cases h
    | some f =>
        simp only [known] at h
        obtain ⟨_, same, h⟩ := ok_of_bind h
        cases same
        obtain ⟨lower, first, h⟩ := ok_of_bind h
        obtain ⟨upper, last, h⟩ := ok_of_bind h
        have made : ∀ {s}, constantOver f x ((Window.between lower upper).intersect context.window) =
            .ok s → Made args context s :=
          fun filled => .late given (Bool.eq_false_iff.2 late) number frequency known first last filled
        unfold constantOver at made
        split at h
        · rename_i low high hlow hhigh
          obtain ⟨⟨grid, more⟩, generated, h⟩ := ok_of_bind h
          dsimp only at h
          obtain ⟨-, h⟩ := ok_of_else h
          cases h
          refine ⟨_, rfl, made ?_⟩
          simp only [hlow, hhigh, orAbort_ok generated]
          rfl
        · rename_i unbounded
          cases h
          refine ⟨_, rfl, made ?_⟩
          split
          · rename_i low high hlow hhigh
            exact absurd hhigh (unbounded low high hlow)
          · rfl

theorem readToday_ok {args : Arguments} {context : Context} (sees : args.context = some context)
    {v : Value} (h : readToday args = .ok v) :
    v = .timestamp (context.revision.getD context.now) := by
  obtain ⟨_, -, h⟩ := ok_of_bind h
  have seen : (args.requireContext.bind fun context =>
      .ok (Value.timestamp (context.revision.getD context.now))) = .ok v →
      v = .timestamp (context.revision.getD context.now) := by
    rw [Arguments.requireContext, sees]
    rintro ⟨⟩
    rfl
  dsimp only at h
  split at h
  · exact seen h
  · obtain ⟨_, -, h⟩ := ok_of_bind h
    exact seen h

end Operator

namespace Env

variable {env : Env} {catalog : Catalog} {n : Nat} {context : Context} {call : Call} {v : Value}

theorem Yields.plain {o : Operator} {run : Arguments → Except Error Value}
    (found : env.registry.get? call.op = some o) (plain : o.Plain run)
    (h : env.Yields catalog (n + 1) context (.call call) v) :
    ∃ args, env.Gathers catalog n context o call args ∧ run args = .ok v := by
  obtain ⟨path, _, known, h⟩ := h.call
  cases found.symm.trans known
  simp only [plain.implementation, run_answer_ofExcept] at h
  exact h

theorem Yields.series (found : env.registry.get? call.op = some Operator.series)
    (h : env.Yields catalog (n + 1) context (.call call) v) :
    ∃ args name s, env.Gathers catalog n context Operator.series call args ∧
      args.textAt 0 = .ok name ∧ env.Fetches catalog n context name s ∧
      v = .series (Operator.shaped args s) := by
  obtain ⟨path, _, known, h⟩ := h.call
  cases found.symm.trans known
  obtain ⟨args, gathers, h⟩ := h
  obtain ⟨seen, sees, h⟩ := ok_of_answer_bind h
  rw [run_answer_ofExcept, Arguments.requireContext, gathers.sees] at sees
  have same : context = seen := Except.ok.inj sees
  subst same
  obtain ⟨name, text, h⟩ := ok_of_answer_bind h
  obtain ⟨s, fetched, h⟩ := ok_of_answer_bind h
  rw [run_answer_ofExcept] at text
  cases h
  obtain ⟨_, fetched, same⟩ := Query.ok_of_run_bind fetched
  cases same
  exact ⟨args, name, s, gathers, text, fetch_ok fetched, rfl⟩

theorem Yields.constant (found : env.registry.get? call.op = some Operator.constant)
    (h : env.Yields catalog (n + 1) context (.call call) v) :
    ∃ args s, env.Gathers catalog n context Operator.constant call args ∧
      Operator.Made args context s ∧ v = .series s := by
  obtain ⟨path, _, known, h⟩ := h.call
  cases found.symm.trans known
  obtain ⟨args, gathers, h⟩ := h
  rw [run_answer_ofExcept] at h
  obtain ⟨s, rfl, made⟩ := Operator.makeConstant_ok gathers.sees h
  exact ⟨args, s, gathers, made, rfl⟩

theorem Yields.today (found : env.registry.get? call.op = some Operator.today)
    (h : env.Yields catalog (n + 1) context (.call call) v) :
    v = .timestamp (context.revision.getD context.now) := by
  obtain ⟨path, _, known, h⟩ := h.call
  cases found.symm.trans known
  obtain ⟨args, gathers, h⟩ := h
  rw [run_answer_ofExcept] at h
  exact Operator.readToday_ok gathers.sees h

/-- What a keyword that stands for an integer says. -/
inductive Counts (env : Env) (catalog : Catalog) (n : Nat) (context : Context) (call : Call)
    (name : String) : Int → Prop
  | absent (absent : call.keyword? name = none) : Counts env catalog n context call name 0
  | given {e k} (given : call.keyword? name = some e)
      (yields : env.Yields catalog n context e (.int k)) : Counts env catalog n context call name k

theorem counts_of_answer {path : Path} {name : String} {k : Int}
    (h : (env.answer (env.evalAt n) path (Operator.intSlot call name context path)).run catalog =
      .ok k) : env.Counts catalog n context call name k := by
  unfold Operator.intSlot at h
  split at h
  · rename_i absent
    cases h
    exact .absent absent
  · rename_i e given
    obtain ⟨v, yields, h⟩ := ok_of_answer_bind h
    cases v with
    | int k =>
        cases h
        exact .given given (yields_of_answer yields)
    | _ => cases h

/-- An argument whose value an operator takes as a series. -/
theorem series_of_answer {path : Path} {i : Nat} {s : Series}
    (h : (env.answer (env.evalAt n) path (Operator.seriesSlot call i context path)).run catalog =
      .ok s) : ∃ e, call.args[i]? = some e ∧ env.Yields catalog n context e (.series s) := by
  unfold Operator.seriesSlot at h
  split at h
  · cases h
  · rename_i e given
    obtain ⟨v, yields, h⟩ := ok_of_answer_bind h
    cases v with
    | series s =>
        cases h
        exact ⟨e, given, yields_of_answer yields⟩
    | _ => cases h

theorem Yields.timeShifted (found : env.registry.get? call.op = some Operator.timeShifted)
    (h : env.Yields catalog (n + 1) context (.call call) v) :
    ∃ weeks days hours minutes delta e s, env.Counts catalog n context call "weeks" weeks ∧
      env.Counts catalog n context call "days" days ∧
      env.Counts catalog n context call "hours" hours ∧
      env.Counts catalog n context call "minutes" minutes ∧
      Span.duration? weeks days hours minutes = some delta ∧ call.args[0]? = some e ∧
      env.Yields catalog n
        { context with window := Operator.windowBefore context.window delta } e (.series s) ∧
      v = .series ((s.moved delta).restrict context.window) := by
  obtain ⟨path, _, known, h⟩ := h.call
  cases found.symm.trans known
  obtain ⟨weeks, hweeks, h⟩ := ok_of_answer_bind h
  obtain ⟨days, hdays, h⟩ := ok_of_answer_bind h
  obtain ⟨hours, hhours, h⟩ := ok_of_answer_bind h
  obtain ⟨minutes, hminutes, h⟩ := ok_of_answer_bind h
  cases duration : Span.duration? weeks days hours minutes with
  | none =>
      simp only [duration] at h
      cases h
  | some delta =>
      simp only [duration] at h
      obtain ⟨s, shifted, h⟩ := ok_of_answer_bind h
      cases h
      obtain ⟨e, given, yields⟩ := series_of_answer shifted
      exact ⟨weeks, days, hours, minutes, delta, e, s, counts_of_answer hweeks, counts_of_answer hdays,
        counts_of_answer hhours, counts_of_answer hminutes, duration, given, yields, rfl⟩

/-- Keywords whose values are related count the same. -/
theorem Counts.eq {S : Series → Series → Prop} {env' : Env} {n' : Nat} {context' : Context}
    {name : String} {k k' : Int}
    (related : ∀ {e v v'}, e ∈ call.arguments → env.Yields catalog n context e v →
      env'.Yields catalog n' context' e v' → Value.Related S v v')
    (h : env.Counts catalog n context call name k) (h' : env'.Counts catalog n' context' call name k') :
    k = k' := by
  cases h with
  | absent absent =>
      cases h' with
      | absent _ => rfl
      | given given' _ => cases absent.symm.trans given'
  | given given yields =>
      cases h' with
      | absent absent' => cases given.symm.trans absent'
      | given given' yields' =>
          cases given.symm.trans given'
          cases related (Application.mem_arguments_of_keyword? given) yields yields'
          rfl

/-- So two evaluations shift by the same span. -/
theorem Yields.timeShifted_alike {S : Series → Series → Prop} {env' : Env} {n' : Nat}
    {context' : Context} {v' : Value} (found : env.registry.get? call.op = some Operator.timeShifted)
    (found' : env'.registry.get? call.op = some Operator.timeShifted)
    (related : ∀ {e v v'}, e ∈ call.arguments → env.Yields catalog n context e v →
      env'.Yields catalog n' context' e v' → Value.Related S v v')
    (h : env.Yields catalog (n + 1) context (.call call) v)
    (h' : env'.Yields catalog (n' + 1) context' (.call call) v') :
    ∃ delta e s s', call.args[0]? = some e ∧
      env.Yields catalog n
        { context with window := Operator.windowBefore context.window delta } e (.series s) ∧
      env'.Yields catalog n'
        { context' with window := Operator.windowBefore context'.window delta } e (.series s') ∧
      v = .series ((s.moved delta).restrict context.window) ∧
      v' = .series ((s'.moved delta).restrict context'.window) := by
  obtain ⟨weeks, days, hours, minutes, delta, e, s, hweeks, hdays, hhours, hminutes, duration, first,
    yields, rfl⟩ := h.timeShifted found
  obtain ⟨weeks', days', hours', minutes', delta', e', s', hweeks', hdays', hhours', hminutes',
    duration', first', yields', rfl⟩ := h'.timeShifted found'
  cases hweeks.eq related hweeks'
  cases hdays.eq related hdays'
  cases hhours.eq related hhours'
  cases hminutes.eq related hminutes'
  cases duration.symm.trans duration'
  cases first.symm.trans first'
  exact ⟨delta, e, s, s', first, yields, yields', rfl, rfl⟩

/-- An argument whose value an operator takes as a timestamp. -/
theorem instant_of_answer {path : Path} {param : String} {i : Nat} {t : Instant}
    (h : (env.answer (env.evalAt n) path (Operator.instantSlot call i param context path)).run catalog =
      .ok t) : ∃ e v, call.args[i]? = some e ∧ env.Yields catalog n context e v ∧
        ParamType.timestamp.coerce? v = some (.timestamp t) := by
  unfold Operator.instantSlot at h
  split at h
  · cases h
  · rename_i e given
    obtain ⟨v, yields, h⟩ := ok_of_answer_bind h
    refine ⟨e, v, given, yields_of_answer yields, ?_⟩
    cases v with
    | timestamp t =>
        cases h
        rfl
    | str text =>
        cases read : Instant.ofText? text with
        | none =>
            simp only [read] at h
            cases h
        | some t =>
            simp only [read] at h
            cases h
            rw [ParamType.coerce?, read, Option.map_some]
    | _ => cases h

theorem Yields.asOf (found : env.registry.get? call.op = some Operator.asOf)
    (h : env.Yields catalog (n + 1) context (.call call) v) :
    ∃ dated date revision e s, call.args[0]? = some dated ∧ env.Yields catalog n context dated date ∧
      ParamType.timestamp.coerce? date = some (.timestamp revision) ∧ call.args[1]? = some e ∧
      env.Yields catalog n { context with revision := some revision } e (.series s) ∧
      v = .series s := by
  obtain ⟨path, _, known, h⟩ := h.call
  cases found.symm.trans known
  obtain ⟨revision, asked, h⟩ := ok_of_answer_bind h
  obtain ⟨s, read, h⟩ := ok_of_answer_bind h
  cases h
  obtain ⟨dated, date, first, yields, coerced⟩ := instant_of_answer asked
  obtain ⟨e, second, read⟩ := series_of_answer read
  exact ⟨dated, date, revision, e, s, first, yields, coerced, second, read, rfl⟩

end Env

end SeriesLang
