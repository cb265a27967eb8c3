import SeriesLang.Proofs.Operator.Plain
import SeriesLang.Proofs.Query.Evaluation
import SeriesLang.Proofs.Series.Indexing

/-! # Operators by index

The operators that take arguments, values of a row or a group, or slices by index, once more with a fault for an
index out of range. Evaluated with them an expression has the value that it has anyway, whatever the fault is, so
none is ever met: what the indexes rely on has been checked before, or holds of every bucket and row.
-/

namespace SeriesLang

namespace Operator

variable {fault : Error} {call : Call} {context : Context} {path : Path} {args : Arguments}

/-- The quotient of the first two values of a row, by index. -/
def quotientAt (fault : Error) (values : List Float) : Except Error Float := do
  return (← elementAt fault values 0) / (← elementAt fault values 1)

/-- The quotient of two series where it is finite, with the values of each row taken by index. -/
def divideAt (fault : Error) (args : Arguments) : Except Error Value := do
  let s ← Combine.strictAt fault (quotientAt fault) (← args.seriesFrom 0)
  return .series (s.retain (fun _ v => v.isFinite))

/-- Aggregate over a calendar grid, with the values of each bucket taken by index. -/
def resampleAt (fault : Error) (args : Arguments) : Except Error Value := do
  let text ← args.textAt 1
  let f ← match Frequency.ofText? text with
    | some f => .ok f
    | none => .error (args.failure s!"bad frequency `{text}`")
  let method ← args.textAt 2
  match Aggregate.ofBucketName? method with
  | some a => return .series (← Series.bucketsAt fault a (← orAbort ((← args.seriesAt 0).buckets f)))
  | none => .error (args.failure s!"bad resampling method `{method}`")

/-- Aggregate over trailing windows, with the points of each window taken by index. -/
def rollAt (fault : Error) (args : Arguments) : Except Error Value := do
  let count ← match args.positionalAt 1 with
    | .int n =>
      if 1 ≤ n then .ok n.toNat
      else .error (args.failure "window must be a positive number of points")
    | _ => .error (args.failure "window must be a positive number of points")
  let method := (args.textKeyword? "method").getD "mean"
  match Aggregate.ofRollingName? method with
  | some a => return .series (← (← args.seriesAt 0).rollingAt fault count a)
  | none => .error (args.failure s!"bad rolling method `{method}`")

/-- The value of the argument at an index as a series. -/
def seriesSlotAt (fault : Error) (call : Call) (index : Nat) (context : Context) (path : Path) :
    Body Series := do
  let e ← Body.ofExcept (elementAt fault call.args index)
  match ← Body.value context e (toString index) with
  | .series s => return s
  | v => .fail (.typeMismatch call.op path "series" ParamType.series.describe v.typeName)

/-- Shift the value dates of a series, the first argument by index. -/
def shiftSeriesAt (fault : Error) (call : Call) (context : Context) (path : Path) : Body Value := do
  let weeks ← intSlot call "weeks" context path
  let days ← intSlot call "days" context path
  let hours ← intSlot call "hours" context path
  let minutes ← intSlot call "minutes" context path
  match Span.duration? weeks days hours minutes with
  | none => .fail (.evaluation call.op path "shift out of range")
  | some delta =>
    let before := { context with window := windowBefore context.window delta }
    let s ← seriesSlotAt fault call 0 before path
    return .series ((s.moved delta).restrict context.window)

/-- Read a series as of another revision, the second argument by index. -/
def readAsOfAt (fault : Error) (call : Call) (context : Context) (path : Path) : Body Value := do
  let revision ← instantSlot call 0 "revision" context path
  let s ← seriesSlotAt fault call 1 { context with revision := some revision } path
  return .series s

/-- What the operator computes, by index where the built-in operator of its name goes by index. -/
def implementationAt (fault : Error) (o : Operator) : Implementation :=
  if o.name = "div" then .values fun args => .ofExcept (divideAt fault args)
  else if o.name = "resample" then .values fun args => .ofExcept (resampleAt fault args)
  else if o.name = "rolling" then .values fun args => .ofExcept (rollAt fault args)
  else if o.name = "time-shifted" then .tree (shiftSeriesAt fault)
  else if o.name = "asof" then .tree (readAsOfAt fault)
  else o.implementation

/-- The operator with a fault for every index out of range. -/
def indexed (fault : Error) (o : Operator) : Operator :=
  { o with implementation := o.implementationAt fault }

theorem quotientAt_eq {values : List Float} (two : values.length = 2) :
    quotientAt fault values = .ok (quotient values) := by
  match values, two with
  | [a, b], _ => rfl

theorem seriesSlotAt_eq {index : Nat} (given : index < call.args.length) :
    seriesSlotAt fault call index context path = seriesSlot call index context path := by
  rw [seriesSlotAt, elementAt_ok (List.getElem?_eq_getElem given), seriesSlot, List.getElem?_eq_getElem given]
  rfl

theorem shiftSeriesAt_eq (given : 0 < call.args.length) :
    shiftSeriesAt fault call context path = shiftSeries call context path := by
  simp only [shiftSeriesAt, seriesSlotAt_eq given]
  rfl

theorem readAsOfAt_eq (given : 1 < call.args.length) :
    readAsOfAt fault call context path = readAsOf call context path := by
  simp only [readAsOfAt, seriesSlotAt_eq given]
  rfl

theorem resampleAt_eq (fault : Error) :
    .values (fun args => .ofExcept (resampleAt fault args)) = resample.implementation := by
  refine congrArg Implementation.values (funext fun args => congrArg Body.ofExcept ?_)
  show Except.bind (args.textAt 1) _ = Except.bind (args.textAt 1) _
  refine congrArg (Except.bind (args.textAt 1)) (funext fun text => ?_)
  cases Frequency.ofText? text with
  | none => rfl
  | some f =>
      show Except.bind (args.textAt 2) _ = Except.bind (args.textAt 2) _
      refine congrArg (Except.bind (args.textAt 2)) (funext fun method => ?_)
      cases Aggregate.ofBucketName? method with
      | none => rfl
      | some a =>
          show Except.bind (args.seriesAt 0) _ = Except.bind (args.seriesAt 0) _
          refine congrArg (Except.bind (args.seriesAt 0)) (funext fun s => ?_)
          show Except.bind (orAbort (s.buckets f)) _ = Except.bind (orAbort (s.resample f a)) _
          cases grouped : s.buckets f with
          | error e =>
              rw [Series.resample, grouped]
              rfl
          | ok groups =>
              show Except.bind (Series.bucketsAt fault a groups) _ = _
              rw [Series.bucketsAt_eq grouped, Series.resample, grouped]
              rfl

theorem rollAt_eq (fault : Error) :
    .values (fun args => .ofExcept (rollAt fault args)) = rolling.implementation := by
  refine congrArg Implementation.values (funext fun args => congrArg Body.ofExcept ?_)
  rw [rollAt]
  cases given : args.positionalAt 1 with
  | int n =>
      by_cases positive : 1 ≤ n
      · simp only [given, if_pos positive]
        cases Aggregate.ofRollingName? ((args.textKeyword? "method").getD "mean") with
        | none => rfl
        | some a =>
            show Except.bind (args.seriesAt 0) _ = Except.bind (args.seriesAt 0) _
            refine congrArg (Except.bind (args.seriesAt 0)) (funext fun s => ?_)
            show Except.bind (s.rollingAt fault n.toNat a) _ = _
            rw [Series.rollingAt_eq (by omega)]
            rfl
      · simp only [given, if_neg positive]
        rfl
  | _ =>
      simp only [given]
      rfl

theorem divideAt_eq (two : args.positional.length = 2) :
    divideAt fault args = (do
        let s := Combine.strict quotient (← args.seriesFrom 0)
        return .series (s.retain (fun _ v => v.isFinite))) := by
  show Except.bind (args.seriesFrom 0) _ = Except.bind (args.seriesFrom 0) _
  cases inputs : args.seriesFrom 0 with
  | error e => rfl
  | ok ss =>
      have length : ss.length = 2 := by
        have same := map_of_mapM (g := fun _ => ()) (k := fun _ => ()) inputs fun _ _ _ => rfl
        simpa [two] using congrArg List.length same
      show Except.bind (Combine.strictAt fault (quotientAt fault) ss) _ = _
      rw [Combine.strictAt_eq fun values same => quotientAt_eq (same.trans length)]
      rfl

/-- Only three of the built-in operators rely on a check of their arguments. -/
theorem implementationAt_cases {o : Operator} (h : o ∈ builtins) (fault : Error) :
    o.implementationAt fault = o.implementation ∨ o = seriesQuotient ∨ o = timeShifted ∨ o = asOf := by
  have named : ∀ {p : Operator}, p ∈ builtins → o.name = p.name → o = p := by
    intro p hp same
    have found := Registry.builtin_get?_of_mem h
    rw [same, Registry.builtin_get?_of_mem hp] at found
    exact (Option.some.inj found).symm
  unfold implementationAt
  split
  · rename_i same
    exact .inr (.inl (named (by simp [builtins]) same))
  · split
    · rename_i same
      cases named (p := resample) (by simp [builtins]) same
      exact .inl (resampleAt_eq fault)
    · split
      · rename_i same
        cases named (p := rolling) (by simp [builtins]) same
        exact .inl (rollAt_eq fault)
      · split
        · rename_i same
          exact .inr (.inr (.inl (named (by simp [builtins]) same)))
        · split
          · rename_i same
            exact .inr (.inr (.inr (named (by simp [builtins]) same)))
          · exact .inl rfl

end Operator

namespace Registry

/-- The built-in operators with a fault for every index out of range. -/
def indexed (fault : Error) : Registry :=
  ⟨Operator.builtins.map (Operator.indexed fault)⟩

theorem get?_indexed (fault : Error) (name : String) :
    (indexed fault).get? name = (Registry.builtin.get? name).map (Operator.indexed fault) := by
  rw [builtin_eq, get?, get?, indexed, List.find?_map]
  rfl

end Registry

namespace Signature

variable {op : String} {path : Path}

/-- Without a tail there are as many bound arguments as parameters. -/
theorem length_bindPositional {ps : List Param} {vs ws : List Value}
    (h : bindPositional op path none ps vs = .ok ws) : ws.length = ps.length := by
  induction ps generalizing vs ws with
  | nil =>
      cases h
      rfl
  | cons p ps ih =>
      cases vs with
      | nil =>
          obtain ⟨rest, others, h⟩ := ok_of_bind h
          cases h
          rw [List.length_cons, List.length_cons, ih others]
      | cons v vs =>
          obtain ⟨w, -, h⟩ := ok_of_bind h
          obtain ⟨rest, others, h⟩ := ok_of_bind h
          cases h
          rw [List.length_cons, List.length_cons, ih others]

theorem length_positional {sig : Signature} {vs : List Value} {ks : List (String × Value)} {b : Bound}
    (h : sig.bind op path vs ks = .ok b) (noTail : sig.rest = none) :
    b.positional.length = sig.positional.length := by
  obtain ⟨-, places, -⟩ := bind_eq_ok_iff.1 h
  rw [noTail] at places
  exact length_bindPositional places

/-- An application that passes the check has the arguments that are required. -/
theorem requiredCount_le {sig : Signature} {call : Call} {u : Unit}
    (h : sig.checkCall call path = .ok u) : sig.requiredCount ≤ call.args.length := by
  unfold checkCall checkShape at h
  exact Nat.le_of_not_lt (ok_of_else h).1

end Signature

namespace Env

variable {env : Env} {fault : Error}

/-- The environment with a fault for every index out of range. -/
def indexed (env : Env) (fault : Error) : Env :=
  { env with registry := .indexed fault }

theorem answer_indexed {α : Type} (eval : Evaluator) (path : Path) (b : Body α) :
    (env.indexed fault).answer eval path b = env.answer eval path b := by
  induction b with
  | done a => rfl
  | fail e => rfl
  | eval context e slot next ih =>
      show Query.bind _ _ = Query.bind _ _
      exact congrArg _ (funext ih)
  | fetch context name next ih =>
      show Query.bind _ _ = Query.bind _ _
      exact congrArg _ (funext ih)

/-- Carry out an operator for an application that has passed the check. -/
def perform (env : Env) (eval : Evaluator) (context : Context) (path : Path) (call : Call) (o : Operator) :
    Query Value :=
  match o.implementation with
  | .tree run => env.answer eval path (run call context path)
  | .values run => do
    let positional ← evalArgs eval context path 0 call.args
    let keywords ← evalKwargs eval context path call.kwargs
    let bound ← Query.ofExcept (o.signature.bind call.op path positional keywords)
    env.answer eval path (run
      { op := call.op, path, positional := bound.positional, keywords := bound.keywords,
        context := if o.wantsContext then some context else none })

theorem evalCall_eq (env : Env) (eval : Evaluator) (context : Context) (path : Path) (call : Call) :
    env.evalCall eval context path call = (do
      Query.ofExcept (env.checkpoint path)
      let o ← Query.ofExcept (env.registry.find call.op path)
      Query.ofExcept (o.signature.checkCall call path)
      env.perform eval context path call o) :=
  rfl

/-- What the check has found of an application is enough for every index. -/
theorem perform_indexed (eval : Evaluator) (context : Context) {path : Path} {call : Call} {o : Operator}
    (known : o ∈ Operator.builtins) {u : Unit} (shape : o.signature.checkCall call path = .ok u) :
    (env.indexed fault).perform eval context path call (o.indexed fault) =
      env.perform eval context path call o := by
  rcases Operator.implementationAt_cases known fault with same | rfl | rfl | rfl
  · have unchanged : o.indexed fault = o := by
      rw [Operator.indexed, same]
    rw [unchanged, perform, perform]
    simp only [answer_indexed]
  · show Query.bind (evalArgs eval context path 0 call.args) _ =
      Query.bind (evalArgs eval context path 0 call.args) _
    refine congrArg (Query.bind _) (funext fun positional => ?_)
    show Query.bind (evalKwargs eval context path call.kwargs) _ =
      Query.bind (evalKwargs eval context path call.kwargs) _
    refine congrArg (Query.bind _) (funext fun keywords => ?_)
    show Query.bind (.ofExcept (Operator.seriesQuotient.signature.bind ..)) _ =
      Query.bind (.ofExcept (Operator.seriesQuotient.signature.bind ..)) _
    cases taken : Operator.seriesQuotient.signature.bind call.op path positional keywords with
    | error e => rfl
    | ok bound =>
        show (env.indexed fault).answer eval path (.ofExcept (Operator.divideAt fault _)) = _
        rw [answer_indexed, Operator.divideAt_eq (Signature.length_positional taken rfl)]
        rfl
  · show (env.indexed fault).answer eval path (Operator.shiftSeriesAt fault call context path) = _
    rw [answer_indexed, Operator.shiftSeriesAt_eq (Signature.requiredCount_le shape)]
    rfl
  · show (env.indexed fault).answer eval path (Operator.readAsOfAt fault call context path) = _
    rw [answer_indexed, Operator.readAsOfAt_eq (Signature.requiredCount_le shape)]
    rfl

theorem evalCall_indexed (builtin : env.registry = .builtin) (eval : Evaluator) (context : Context)
    (path : Path) (call : Call) :
    (env.indexed fault).evalCall eval context path call = env.evalCall eval context path call := by
  rw [evalCall_eq, evalCall_eq]
  show Query.bind (.ofExcept (env.checkpoint path)) _ = Query.bind (.ofExcept (env.checkpoint path)) _
  refine congrArg (Query.bind _) (funext fun _ => ?_)
  show Query.bind (.ofExcept ((Registry.indexed fault).find call.op path)) _ =
    Query.bind (.ofExcept (env.registry.find call.op path)) _
  rw [builtin, Registry.find, Registry.find, Registry.get?_indexed]
  cases known : Registry.builtin.get? call.op with
  | none => rfl
  | some o =>
      show Query.bind (.ofExcept (o.signature.checkCall call path)) _ =
        Query.bind (.ofExcept (o.signature.checkCall call path)) _
      cases shape : o.signature.checkCall call path with
      | error e => rfl
      | ok _ => exact perform_indexed eval context (Registry.builtin_get? known).1 shape

theorem evalAt_indexed (builtin : env.registry = .builtin) (n : Nat) :
    (env.indexed fault).evalAt n = env.evalAt n := by
  induction n with
  | zero =>
      funext context parent slot e
      cases e <;> rfl
  | succ n ih =>
      funext context parent slot e
      cases e with
      | literal l => rfl
      | symbol name => rfl
      | call call =>
          show (env.indexed fault).evalCall ((env.indexed fault).evalAt n) context _ call = _
          rw [ih, evalCall_indexed builtin]
          rfl

end Env

/-- A hook that is asked for revision dates fails if the argument that it looks at is missing. -/
theorem Operator.hook_cases {o : Operator} (h : o ∈ builtins)
    {hook : Call → Context → Path → Body (List Instant)} (dates : o.insertionDates = some hook)
    (call : Call) (context : Context) (path : Path) :
    (∃ e next, call.args[4]? = some e ∧ hook call context path = .eval context e "4" next) ∨
      call.args.length ≤ 4 ∧
        hook call context path = .fail (.evaluation call.op path "missing `revdate` argument") := by
  rcases builtin_cases h with rfl | rfl | rfl | rfl | rfl | ⟨run, plain⟩
  · cases dates
  · cases dates
    cases given : call.args[4]? with
    | none =>
        refine .inr ⟨List.getElem?_eq_none_iff.1 given, ?_⟩
        show Body.bind (instantSlot call 4 "revdate" context path) _ = _
        rw [instantSlot, given]
        rfl
    | some e =>
        refine .inl ⟨e, ?_⟩
        show ∃ next, _ ∧ Body.bind (instantSlot call 4 "revdate" context path) _ = _
        rw [instantSlot, given]
        exact ⟨_, rfl, rfl⟩
  · cases dates
  · cases dates
  · cases dates
  · rw [plain.dates] at dates
    cases dates

/-- Whatever an index out of range would lead to, no evaluation comes to it, nor does the layout of rows. The
    hooks, which see applications that nobody has checked, fail of themselves. -/
theorem Env.evaluate_indexed {env : Env} (builtin : env.registry = .builtin) (fault : Error) :
    (∀ context e, (env.indexed fault).evaluate context e = env.evaluate context e) ∧
    (∀ fill inputs, Combine.rowsAt fault fill inputs =
      .ok (if fill then Combine.filledRows inputs else Combine.rows inputs)) ∧
    ∀ o ∈ Operator.builtins, ∀ hook, o.insertionDates = some hook → ∀ call context path,
      (∃ e next, call.args[4]? = some e ∧ hook call context path = .eval context e "4" next) ∨
        call.args.length ≤ 4 ∧
          hook call context path = .fail (.evaluation call.op path "missing `revdate` argument") := by
  refine ⟨fun context e => ?_, Combine.rowsAt_eq, fun o h hook dates => Operator.hook_cases h dates⟩
  show (env.indexed fault).evalAt env.maxDepth context .root "" e = _
  rw [evalAt_indexed builtin]
  rfl

/-- A store with a series of one point. -/
def Env.single : Env where
  registry := .builtin
  store := ({} : Store).insert "s" { seconds := 20, nanos := 0 } [({ seconds := 10, nanos := 0 }, 1)]

/-- The medians of windows that are longer than the series. -/
theorem Env.evaluate_indexed_longer :
    let medians : Expr :=
      .call ⟨"rolling", [.series "s", .literal (.int 2)], [("method", .literal (.str "median"))]⟩
    (((single.indexed (.aborted .stepZero)).evaluate { now := { seconds := 99, nanos := 0 } } medians).run
      .empty).toOption.bind Value.series? = some .empty := by
  intro medians
  have builtin : single.registry = .builtin := by simp only [single]
  rw [(evaluate_indexed builtin _).1]
  decide +kernel

end SeriesLang
