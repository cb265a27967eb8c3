import SeriesLang.Proofs.Operator.Placeless
import SeriesLang.Proofs.Operator.Related

/-! # Plain operators

Most of the built-in operators make their value of nothing but their arguments. Whatever relation the series
among these stand in, if the operations on series keep it, so do the operators.
-/

namespace SeriesLang

/-- A relation that is kept by the operations that look at one instant at a time. -/
structure Series.Closed (S : Series → Series → Prop) : Prop where
  mapValues : ∀ {s s'}, S s s' → ∀ f, S (s.mapValues f) (s'.mapValues f)
  retain : ∀ {s s'}, S s s' → ∀ keep, S (s.retain keep) (s'.retain keep)
  strict : ∀ {ss ss'}, List.Forall₂ S ss ss' → ∀ f, S (Combine.strict f ss) (Combine.strict f ss')
  lenient : ∀ {ss ss'}, List.Forall₂ S ss ss' → ∀ f skip,
    S (Combine.lenient f skip ss) (Combine.lenient f skip ss')
  patch : ∀ {ss ss'}, List.Forall₂ S ss ss' → S (Combine.patch ss) (Combine.patch ss')

/-- A relation that is kept by the operations on whole series too. -/
structure Series.ClosedWhole (S : Series → Series → Prop) : Prop extends Series.Closed S where
  resample : ∀ {s s'}, S s s' → ∀ {f a r r'}, s.resample f a = .ok r → s'.resample f a = .ok r' →
    S r r'
  rolling : ∀ {s s'}, S s s' → ∀ count a, S (s.rolling count a) (s'.rolling count a)
  cumulative : ∀ {s s'}, S s s' → S s.cumulative s'.cumulative

namespace Operator

variable {S : Series → Series → Prop} {run : Arguments → Except Error Value}

/-- Related arguments are made into related values. -/
def Respects (S : Series → Series → Prop) (run : Arguments → Except Error Value) : Prop :=
  ∀ (a a' : Arguments) (v v' : Value), a.Related S a' → run a = .ok v → run a' = .ok v' →
    Value.Related S v v'

/-- Values are made that are no texts. -/
def Textless (run : Arguments → Except Error Value) : Prop :=
  ∀ (a : Arguments) (v : Value), run a = .ok v → ∀ text, v ≠ .str text

/-- A computation from all arguments as series. -/
theorem Textless.ofAll {f : Arguments → List Series → Series} :
    Textless (fun a => (a.seriesFrom 0).bind fun ss => .ok (.series (f a ss))) := by
  intro a v h text
  obtain ⟨ss, -, h⟩ := ok_of_bind h
  cases h
  simp

/-- A computation from all arguments as series. -/
theorem Respects.ofAll {f : Arguments → List Series → Series}
    (h : ∀ {a a' ss ss'}, a.Related S a' → List.Forall₂ S ss ss' → S (f a ss) (f a' ss')) :
    Respects S (fun a => (a.seriesFrom 0).bind fun ss => .ok (.series (f a ss))) := by
  intro a a' v v' related hv hv'
  obtain ⟨ss, inputs, hv⟩ := ok_of_bind hv
  obtain ⟨ss', inputs', hv'⟩ := ok_of_bind hv'
  cases hv
  cases hv'
  exact .series (h related (related.seriesFrom inputs inputs'))

theorem arithmeticValue_related (closed : Series.Closed S) (exact : Int → Int → Int)
    (rounded : Float → Float → Float) {v v' w w' : Value} (hv : Value.Related S v v')
    (hw : Value.Related S w w') :
    Value.Related S (arithmeticValue exact rounded v w) (arithmeticValue exact rounded v' w') := by
  cases hw with
  | @series s s' h =>
      have number := hv.number?
      have unfolded : ∀ (v : Value) (s : Series), arithmeticValue exact rounded v (.series s) =
          .series (s.mapValues (rounded (v.number?.getD undefined))) := by
        intro v s
        cases v <;> rfl
      rw [unfolded, unfolded, number]
      exact .series (closed.mapValues h _)
  | scalar scalar =>
      have result : ∀ v, (arithmeticValue exact rounded v w).series? = none := by
        intro v
        unfold arithmeticValue
        split
        · split <;> rfl
        · cases scalar
        · rfl
      rcases hv.eq_or_series with rfl | ⟨s, s', rfl, rfl⟩
      · exact .scalar (result _)
      · have same : arithmeticValue exact rounded (.series s') w =
            arithmeticValue exact rounded (.series s) w := by
          cases w with
          | series _ => cases scalar
          | _ => rfl
        rw [same]
        exact .scalar (result _)

theorem arithmeticValue_textless (exact : Int → Int → Int) (rounded : Float → Float → Float)
    (v w : Value) (text : String) : arithmeticValue exact rounded v w ≠ .str text := by
  unfold arithmeticValue
  split
  · split <;> simp
  · simp
  · simp

theorem onValue_related (closed : Series.Closed S) (f : Float → Float) {v v' : Value}
    (h : Value.Related S v v') : Value.Related S (onValue f v) (onValue f v') := by
  cases h with
  | scalar scalar =>
      refine .scalar ?_
      cases v with
      | series _ => cases scalar
      | _ => rfl
  | series h => exact .series (closed.mapValues h f)

theorem onValue_textless (f : Float → Float) (v : Value) (text : String) : onValue f v ≠ .str text := by
  cases v <;> simp [onValue]

theorem byPriority_related (closed : Series.Closed S) {ss ss' : List Series}
    (h : List.Forall₂ S ss ss') : S (byPriority ss) (byPriority ss') := by
  cases h with
  | nil => exact closed.patch .nil
  | cons first rest =>
      cases rest with
      | nil => exact first
      | cons second others => exact closed.patch (.cons first (.cons second others))

theorem respects_extremum (closed : Series.Closed S) (f : List Float → Float)
    (pick : List Float → Float) (message : String) :
    Respects S (fun args =>
      if args.positional.all (fun v => v.series?.isSome) then
        (args.seriesFrom 0).bind fun ss => .ok (.series (Combine.strict f ss))
      else match args.positional.mapM Value.number? with
        | some numbers => .ok (.float (pick numbers))
        | none => .error (args.failure message)) := by
  intro a a' v v' related hv hv'
  have all : ∀ {vs vs' : List Value}, List.Forall₂ (Value.Related S) vs vs' →
      vs.all (fun v => v.series?.isSome) = vs'.all (fun v => v.series?.isSome) := by
    intro vs vs' h
    induction h with
    | nil => rfl
    | cons hv _ ih =>
        rw [List.all_cons, List.all_cons, ih]
        rcases hv.eq_or_series with rfl | ⟨s, s', rfl, rfl⟩ <;> rfl
  have numbers : ∀ {vs vs' : List Value}, List.Forall₂ (Value.Related S) vs vs' →
      vs.mapM Value.number? = vs'.mapM Value.number? := by
    intro vs vs' h
    induction h with
    | nil => rfl
    | cons hv _ ih => rw [List.mapM_cons, List.mapM_cons, ih, hv.number?]
  simp only [← all related.positional, ← numbers related.positional] at hv hv'
  split at hv
  · rename_i series
    rw [if_pos series] at hv'
    obtain ⟨ss, inputs, hv⟩ := ok_of_bind hv
    obtain ⟨ss', inputs', hv'⟩ := ok_of_bind hv'
    cases hv
    cases hv'
    exact .series (closed.strict (related.seriesFrom inputs inputs') f)
  · rename_i mixed
    rw [if_neg mixed] at hv'
    split at hv
    · rename_i found
      rw [found] at hv'
      cases hv
      cases hv'
      exact .scalar rfl
    · cases hv

/-- A series that is cut to bounds. -/
def clipped (a : Arguments) (s : Series) : Series :=
  let low := (a.numberKeyword? "min").getD (-Decimal.infinity)
  let high := (a.numberKeyword? "max").getD Decimal.infinity
  let s := if a.boolKeyword "replacemax" true then s else s.retain (fun _ v => v ≤ high)
  let s := if a.boolKeyword "replacemin" true then s else s.retain (fun _ v => low ≤ v)
  s.mapValues (clampValue low high)

theorem clipSeries_ok {a : Arguments} {v : Value} (h : clipSeries a = .ok v) :
    ∃ s, a.seriesAt 0 = .ok s ∧ v = .series (clipped a s) := by
  obtain ⟨s, first, h⟩ := ok_of_bind h
  refine ⟨s, first, ?_⟩
  dsimp only at h
  obtain ⟨-, h⟩ := ok_of_else h
  obtain ⟨-, h⟩ := ok_of_then h
  cases h
  rfl

theorem respects_clip (closed : Series.Closed S) : Respects S clipSeries := by
  intro a a' v v' related hv hv'
  obtain ⟨s, first, rfl⟩ := clipSeries_ok hv
  obtain ⟨s', first', rfl⟩ := clipSeries_ok hv'
  have series := related.seriesAt first first'
  refine .series ?_
  simp only [clipped, ← related.numberKeyword?, ← related.boolKeyword]
  refine closed.mapValues ?_ _
  split <;> split
  · exact series
  · exact closed.retain series _
  · exact closed.retain series _
  · exact closed.retain (closed.retain series _) _

theorem respects_slice (closed : Series.Closed S) : Respects S (fun args =>
    (args.seriesAt 0).bind fun s => .ok (.series
      (s.restrict ⟨args.instantKeyword? "fromdate", args.instantKeyword? "todate"⟩))) := by
  intro a a' v v' related hv hv'
  obtain ⟨s, first, hv⟩ := ok_of_bind hv
  obtain ⟨s', first', hv'⟩ := ok_of_bind hv'
  rw [← related.instantKeyword? "fromdate", ← related.instantKeyword? "todate"] at hv'
  cases hv
  cases hv'
  exact .series (closed.retain (related.seriesAt first first') _)

theorem orAbort_ok {α : Type} {r : Except Abort α} {a : α} (h : orAbort r = .ok a) : r = .ok a := by
  cases r with
  | error e => cases h
  | ok b =>
      cases h
      rfl

/-- What is known of an operator that makes its value of its arguments alone. -/
structure Plain (o : Operator) (run : Arguments → Except Error Value) : Prop where
  implementation : o.implementation = .values (fun args => .ofExcept (run args))
  context : o.wantsContext = false
  finder : o.finder = none
  dates : o.insertionDates = none
  defaults : o.signature.ScalarDefaults
  textless : Textless run
  placeless : Placeless run
  whole : ∀ {S}, Series.ClosedWhole S → Respects S run
  pointwise : o.pushdown = true → ∀ {S}, Series.Closed S → Respects S run

theorem plain_ofPointwise {o : Operator} {run : Arguments → Except Error Value}
    (implementation : o.implementation = .values (fun args => .ofExcept (run args)))
    (context : o.wantsContext = false) (finder : o.finder = none) (dates : o.insertionDates = none)
    (defaults : o.signature.ScalarDefaults) (textless : Textless run) (placeless : Placeless run)
    (respects : ∀ {S}, Series.Closed S → Respects S run) : Plain o run :=
  ⟨implementation, context, finder, dates, defaults, textless, placeless,
    fun closed => respects closed.toClosed, fun _ => respects⟩

theorem plain_arithmetic (name symbol doc : String) (exact : Int → Int → Int)
    (rounded : Float → Float → Float) :
    ∃ run, Plain (arithmetic name symbol doc exact rounded) run := by
  refine ⟨_, plain_ofPointwise rfl rfl rfl rfl (of_decide_eq_true rfl) ?_ (fun _ _ => rfl)
    (fun closed => ?_)⟩
  · intro a v h
    cases h
    exact arithmeticValue_textless exact rounded _ _
  · intro a a' v v' related hv hv'
    cases hv
    cases hv'
    exact arithmeticValue_related closed exact rounded (related.positionalAt 0)
      (related.positionalAt 1)

theorem plain_divide : ∃ run, Plain divide run := by
  refine ⟨_, plain_ofPointwise rfl rfl rfl rfl (by decide) ?_ (fun a path => ?_) (fun closed => ?_)⟩
  · intro a v h
    obtain ⟨divisor, -, h⟩ := ok_of_bind h
    obtain ⟨-, h⟩ := ok_of_else h
    cases h
    exact onValue_textless _ _
  · exact (placeless_numberAt 1 a path).bind fun _ => .ite rfl rfl
  · intro a a' v v' related hv hv'
    obtain ⟨divisor, number, hv⟩ := ok_of_bind hv
    obtain ⟨divisor', number', hv'⟩ := ok_of_bind hv'
    cases related.numberAt number number'
    obtain ⟨-, hv⟩ := ok_of_else hv
    obtain ⟨-, hv'⟩ := ok_of_else hv'
    cases hv
    cases hv'
    exact onValue_related closed _ (related.positionalAt 0)

theorem plain_power : ∃ run, Plain power run := by
  refine ⟨_, plain_ofPointwise rfl rfl rfl rfl (by decide) ?_ (fun a path => ?_) (fun closed => ?_)⟩
  · intro a v h
    obtain ⟨exponent, -, h⟩ := ok_of_bind h
    cases h
    exact onValue_textless _ _
  · exact (placeless_numberAt 1 a path).bind fun _ => rfl
  · intro a a' v v' related hv hv'
    obtain ⟨exponent, number, hv⟩ := ok_of_bind hv
    obtain ⟨exponent', number', hv'⟩ := ok_of_bind hv'
    cases related.numberAt number number'
    cases hv
    cases hv'
    exact onValue_related closed _ (related.positionalAt 0)

theorem plain_combinator (name : String) {f : List Series → Series}
    (h : ∀ {S}, Series.Closed S → ∀ {ss ss'}, List.Forall₂ S ss ss' → S (f ss) (f ss')) :
    ∃ run, Plain (combinator name f) run :=
  ⟨_, plain_ofPointwise rfl rfl rfl rfl (of_decide_eq_true rfl) (.ofAll (f := fun _ => f))
    (.ofAll (f := fun _ => f) (fun _ _ => rfl))
    (fun closed => Respects.ofAll (f := fun _ => f) (fun _ related => h closed related))⟩

theorem plain_seriesQuotient : ∃ run, Plain seriesQuotient run := by
  let f (_ : Arguments) (ss : List Series) : Series :=
    (Combine.strict quotient ss).retain (fun _ v => v.isFinite)
  exact ⟨_, plain_ofPointwise rfl rfl rfl rfl (by decide) (.ofAll (f := f))
    (.ofAll (f := f) (fun _ _ => rfl))
    (fun closed => Respects.ofAll (f := f) (fun _ h => closed.retain (closed.strict h quotient) _))⟩

theorem plain_extremum (name : String) (pick : Float → Float → Float) :
    ∃ run, Plain (extremum name pick) run := by
  refine ⟨_, plain_ofPointwise rfl rfl rfl rfl (of_decide_eq_true rfl) ?_ (fun a path => ?_)
    (fun closed => respects_extremum closed (fun row => row.foldl pick undefined)
      (·.foldl pick undefined) _)⟩
  · intro a v h text
    dsimp only at h
    split at h
    · obtain ⟨ss, -, h⟩ := ok_of_bind h
      cases h
      simp
    · split at h
      · cases h
        simp
      · cases h
  · refine .ite ((placeless_seriesFrom 0 a path).bind fun _ => rfl) ?_
    dsimp only
    split <;> rfl

theorem plain_rowReduction (name : String) (f : List (Float × Float) → Option Float) :
    ∃ run, Plain (rowReduction name f) run := by
  let g (a : Arguments) : List Series → Series := Combine.lenient f (a.boolKeyword "skipna" true)
  refine ⟨_, plain_ofPointwise rfl rfl rfl rfl (of_decide_eq_true rfl) (.ofAll (f := g))
    (.ofAll (f := g) (fun _ _ => rfl)) (fun closed => Respects.ofAll (f := g) (fun related inputs => ?_))⟩
  dsimp only [g]
  rw [← related.boolKeyword]
  exact closed.lenient inputs f _

theorem plain_clip : ∃ run, Plain clip run := by
  refine ⟨_, plain_ofPointwise rfl rfl rfl rfl (by decide) ?_ placeless_clipSeries respects_clip⟩
  intro a v h text
  obtain ⟨s, -, rfl⟩ := clipSeries_ok h
  simp

theorem plain_slice : ∃ run, Plain slice run := by
  refine ⟨_, plain_ofPointwise rfl rfl rfl rfl (by decide) ?_
    (fun a path => (placeless_seriesAt 0 a path).bind fun _ => rfl) respects_slice⟩
  intro a v h text
  obtain ⟨s, -, h⟩ := ok_of_bind h
  cases h
  simp

theorem readDate_ok {a : Arguments} {v : Value} (h : readDate a = .ok v) :
    ∃ text t u, a.textAt 0 = .ok text ∧ Instant.ofText? text = some t ∧ v = .timestamp u ∧
      (a.textKeyword? "tz").elim (some t)
        (fun zone => (Span.utcOffset? zone).bind (fun offset => t.addSeconds? (-offset))) = some u := by
  obtain ⟨_, -, h⟩ := ok_of_bind h
  obtain ⟨text, given, h⟩ := ok_of_bind h
  cases read : Instant.ofText? text with
  | none =>
      rw [read] at h
      cases h
  | some t =>
      simp only [read] at h
      obtain ⟨_, same, h⟩ := ok_of_bind h
      cases same
      cases zoned : a.textKeyword? "tz" with
      | none =>
          rw [zoned] at h
          cases h
          exact ⟨text, t, t, given, read, rfl, rfl⟩
      | some zone =>
          simp only [zoned] at h
          obtain ⟨offset, known, h⟩ := ok_of_bind h
          have offset? : Span.utcOffset? zone = some offset := by
            unfold offsetOf at known
            split at known
            · rename_i found
              cases known
              exact found
            · cases known
          split at h
          · rename_i u moved
            cases h
            refine ⟨text, t, u, given, read, rfl, ?_⟩
            rw [Option.elim_some, offset?, Option.bind_some, moved]
          · cases h

theorem plain_date : ∃ run, Plain date run := by
  refine ⟨_, plain_ofPointwise rfl rfl rfl rfl (by decide) ?_ placeless_readDate (fun _ => ?_)⟩
  · intro a v h text
    obtain ⟨_, _, u, -, -, rfl, -⟩ := readDate_ok h
    simp
  · intro a a' v v' related hv hv'
    obtain ⟨text, t, u, given, read, rfl, moved⟩ := readDate_ok hv
    obtain ⟨text', t', u', given', read', rfl, moved'⟩ := readDate_ok hv'
    cases related.textAt given given'
    cases read.symm.trans read'
    rw [← related.textKeyword?] at moved'
    cases moved.symm.trans moved'
    exact .scalar rfl

theorem plain_shifted : ∃ run, Plain shifted run := by
  refine ⟨_, plain_ofPointwise rfl rfl rfl rfl (by decide) ?_ placeless_shiftDate (fun _ => ?_)⟩
  · intro a v h text
    obtain ⟨t, -, h⟩ := ok_of_bind h
    dsimp only at h
    split at h
    · cases h
      simp
    · cases h
  · intro a a' v v' related hv hv'
    obtain ⟨t, first, hv⟩ := ok_of_bind hv
    obtain ⟨t', first', hv'⟩ := ok_of_bind hv'
    cases related.instantAt first first'
    simp only [← related.intKeyword?] at hv hv'
    split at hv
    · rename_i moved
      rw [moved] at hv'
      cases hv
      cases hv'
      exact .scalar rfl
    · cases hv

theorem plain_boundary (name : String) (f : Instant → Instant) :
    ∃ run, Plain (boundary name f) run := by
  refine ⟨_, plain_ofPointwise rfl rfl rfl rfl (of_decide_eq_true rfl) ?_
    (fun a path => (placeless_instantAt 0 a path).bind fun _ => rfl) (fun _ => ?_)⟩
  · intro a v h text
    obtain ⟨t, -, h⟩ := ok_of_bind h
    cases h
    simp
  · intro a a' v v' related hv hv'
    obtain ⟨t, first, hv⟩ := ok_of_bind hv
    obtain ⟨t', first', hv'⟩ := ok_of_bind hv'
    cases related.instantAt first first'
    cases hv
    cases hv'
    exact .scalar rfl

/-- Aggregate the first argument over the grid that the second one names, by the method that the third one
    names. -/
def Resampled (a : Arguments) (r : Series) : Prop :=
  ∃ text f method aggregate s, a.textAt 1 = .ok text ∧ Frequency.ofText? text = some f ∧
    a.textAt 2 = .ok method ∧ Aggregate.ofBucketName? method = some aggregate ∧
    a.seriesAt 0 = .ok s ∧ s.resample f aggregate = .ok r

/-- What `resample` has done when it succeeds. -/
theorem resample_ok : ∃ run : Arguments → Except Error Value,
    resample.implementation = .values (fun a => .ofExcept (run a)) ∧ Placeless run ∧
    ∀ a v, run a = .ok v → ∃ r, v = .series r ∧ Resampled a r := by
  refine ⟨_, rfl, fun a path => ?_, fun a v h => ?_⟩
  · refine (placeless_textAt 1 a path).bind fun text => ?_
    dsimp only
    split
    · refine Alike.bind rfl fun f => (placeless_textAt 2 a path).bind fun method => ?_
      split
      · exact (placeless_seriesAt 0 a path).bind fun s => rfl
      · rfl
    · rfl
  obtain ⟨text, frequency, h⟩ := ok_of_bind h
  cases hf : Frequency.ofText? text with
  | none =>
      rw [hf] at h
      cases h
  | some f =>
      simp only [hf] at h
      obtain ⟨_, same, h⟩ := ok_of_bind h
      cases same
      obtain ⟨method, name, h⟩ := ok_of_bind h
      cases ha : Aggregate.ofBucketName? method with
      | none =>
          rw [ha] at h
          cases h
      | some aggregate =>
          simp only [ha] at h
          obtain ⟨s, first, h⟩ := ok_of_bind h
          obtain ⟨r, result, h⟩ := ok_of_bind h
          cases h
          exact ⟨r, rfl, text, f, method, aggregate, s, frequency, hf, name, ha, first,
            orAbort_ok result⟩

theorem plain_resample : ∃ run, Plain resample run := by
  obtain ⟨run, implementation, placeless, opened⟩ := resample_ok
  refine ⟨run, implementation, rfl, rfl, rfl, by decide, ?_, placeless, fun closed => ?_, fun h => by cases h⟩
  · intro a v h text
    obtain ⟨r, rfl, -⟩ := opened a v h
    simp
  · intro a a' v v' related hv hv'
    obtain ⟨r, rfl, text, f, method, aggregate, s, frequency, hf, name, ha, first, result⟩ :=
      opened a v hv
    obtain ⟨r', rfl, text', f', method', aggregate', s', frequency', hf', name', ha', first',
      result'⟩ := opened a' v' hv'
    cases related.textAt frequency frequency'
    cases related.textAt name name'
    cases hf.symm.trans hf'
    cases ha.symm.trans ha'
    exact .series (closed.resample (related.seriesAt first first') result result')

theorem plain_cumsum : ∃ run, Plain cumsum run := by
  refine ⟨_, rfl, rfl, rfl, rfl, by decide, ?_,
    fun a path => (placeless_seriesAt 0 a path).bind fun _ => rfl, fun closed => ?_,
    fun h => by cases h⟩
  · intro a v h text
    obtain ⟨s, -, h⟩ := ok_of_bind h
    cases h
    simp
  · intro a a' v v' related hv hv'
    obtain ⟨s, first, hv⟩ := ok_of_bind hv
    obtain ⟨s', first', hv'⟩ := ok_of_bind hv'
    cases hv
    cases hv'
    exact .series (closed.cumulative (related.seriesAt first first'))

/-- Aggregate the first argument over trailing windows of as many points as the second one says. -/
def Rolled (a : Arguments) (r : Series) : Prop :=
  ∃ n aggregate s, a.positionalAt 1 = .int n ∧
    Aggregate.ofRollingName? ((a.textKeyword? "method").getD "mean") = some aggregate ∧
    a.seriesAt 0 = .ok s ∧ r = s.rolling n.toNat aggregate

/-- What `rolling` has done when it succeeds. -/
theorem rolling_ok : ∃ run : Arguments → Except Error Value,
    rolling.implementation = .values (fun a => .ofExcept (run a)) ∧ Placeless run ∧
    ∀ a v, run a = .ok v → ∃ r, v = .series r ∧ Rolled a r := by
  refine ⟨_, rfl, fun a path => ?_, fun a v h => ?_⟩
  · dsimp only [Arguments.positionalAt, Arguments.textKeyword?, Arguments.keyword]
    split
    · refine .ite (Alike.bind rfl fun count => ?_) rfl
      split
      · exact (placeless_seriesAt 0 a path).bind fun s => rfl
      · rfl
    · rfl
  cases given : a.positionalAt 1 with
  | int n =>
      simp only [given] at h
      by_cases positive : 1 ≤ n
      · rw [if_pos positive] at h
        obtain ⟨_, count, h⟩ := ok_of_bind h
        cases count
        cases ha : Aggregate.ofRollingName? ((a.textKeyword? "method").getD "mean") with
        | none =>
            rw [ha] at h
            cases h
        | some aggregate =>
            simp only [ha] at h
            obtain ⟨s, first, h⟩ := ok_of_bind h
            cases h
            exact ⟨_, rfl, n, aggregate, s, given, ha, first, rfl⟩
      · rw [if_neg positive] at h
        cases h
  | _ =>
      rw [given] at h
      cases h

theorem plain_rolling : ∃ run, Plain rolling run := by
  obtain ⟨run, implementation, placeless, opened⟩ := rolling_ok
  refine ⟨run, implementation, rfl, rfl, rfl, by decide, ?_, placeless, fun closed => ?_, fun h => by cases h⟩
  · intro a v h text
    obtain ⟨r, rfl, -⟩ := opened a v h
    simp
  · intro a a' v v' related hv hv'
    obtain ⟨r, rfl, n, aggregate, s, given, ha, first, rfl⟩ := opened a v hv
    obtain ⟨r', rfl, n', aggregate', s', given', ha', first', rfl⟩ := opened a' v' hv'
    have count := related.positionalAt 1
    rw [given, given'] at count
    cases count
    rw [← related.textKeyword?] at ha'
    cases ha.symm.trans ha'
    exact .series (closed.rolling (related.seriesAt first first') _ _)

/-- The built-in operators that are not plain read series by name, make them up, or look at the context. -/
theorem builtin_cases {o : Operator} (h : o ∈ builtins) :
    o = series ∨ o = constant ∨ o = today ∨ o = timeShifted ∨ o = asOf ∨ ∃ run, Plain o run := by
  simp only [builtins, List.mem_cons, List.not_mem_nil, or_false] at h
  have plain : (∃ run, Plain o run) →
      o = series ∨ o = constant ∨ o = today ∨ o = timeShifted ∨ o = asOf ∨ ∃ run, Plain o run :=
    fun h => .inr (.inr (.inr (.inr (.inr h))))
  rcases h with rfl | rfl | rfl | rfl | rfl | rfl | rfl | rfl | rfl | rfl | rfl | rfl | rfl | rfl |
    rfl | rfl | rfl | rfl | rfl | rfl | rfl | rfl | rfl | rfl | rfl | rfl | rfl | rfl
  · exact .inl rfl
  · exact plain (plain_arithmetic _ _ _ _ _)
  · exact plain (plain_arithmetic _ _ _ _ _)
  · exact plain plain_divide
  · exact plain plain_power
  · exact plain (plain_combinator "add" (fun closed _ _ h => closed.strict h _))
  · exact plain (plain_combinator "mul" (fun closed _ _ h => closed.strict h _))
  · exact plain plain_seriesQuotient
  · exact plain (plain_extremum _ _)
  · exact plain (plain_extremum _ _)
  · exact plain (plain_combinator "priority" (fun closed _ _ h => byPriority_related closed h))
  · exact plain (plain_rowReduction _ _)
  · exact plain (plain_rowReduction _ _)
  · exact plain (plain_rowReduction _ _)
  · exact plain (plain_rowReduction _ _)
  · exact plain plain_clip
  · exact plain plain_slice
  · exact plain plain_resample
  · exact plain plain_cumsum
  · exact plain plain_rolling
  · exact .inr (.inr (.inr (.inl rfl)))
  · exact .inr (.inr (.inr (.inr (.inl rfl))))
  · exact .inr (.inl rfl)
  · exact plain plain_date
  · exact .inr (.inr (.inl rfl))
  · exact plain plain_shifted
  · exact plain (plain_boundary _ _)
  · exact plain (plain_boundary _ _)

end Operator

namespace Registry

/-- Operators of different names are registered as they come. -/
theorem ofList_eq {operators : List Operator} (distinct : (operators.map Operator.name).Nodup) :
    ofList operators = ⟨operators⟩ := by
  have general : ∀ (operators : List Operator) (r : Registry),
      ((r.operators ++ operators).map Operator.name).Nodup →
      operators.foldl override r = ⟨r.operators ++ operators⟩ := by
    intro operators
    induction operators with
    | nil =>
        intro r _
        rw [List.append_nil]
        rfl
    | cons o rest ih =>
        intro r distinct
        have new : r.contains o.name = false := by
          rw [contains, Bool.eq_false_iff, ne_eq, get?, List.find?_isSome]
          grind
        rw [List.foldl_cons, override, new, if_neg Bool.false_ne_true, ih]
        · simp
        · simpa using distinct
  exact general operators {} distinct

/-- The built-in operators have different names. -/
theorem builtin_names : (Operator.builtins.map Operator.name).Nodup := by
  decide +kernel

theorem builtin_eq : Registry.builtin = ⟨Operator.builtins⟩ :=
  ofList_eq builtin_names

/-- An operator that is found among the built-in ones. -/
theorem builtin_get? {name : String} {o : Operator} (h : Registry.builtin.get? name = some o) :
    o ∈ Operator.builtins ∧ o.name = name := by
  rw [builtin_eq] at h
  exact ⟨List.mem_of_find?_eq_some h, by simpa using List.find?_some h⟩

theorem find?_of_mem {operators : List Operator} (distinct : (operators.map Operator.name).Nodup)
    {o : Operator} (h : o ∈ operators) : operators.find? (fun p => p.name == o.name) = some o := by
  induction operators with
  | nil => cases h
  | cons p rest ih => grind

theorem builtin_get?_of_mem {o : Operator} (h : o ∈ Operator.builtins) :
    Registry.builtin.get? o.name = some o := by
  rw [builtin_eq, get?]
  exact find?_of_mem builtin_names h

theorem builtin_get?_series : Registry.builtin.get? "series" = some Operator.series :=
  builtin_get?_of_mem (o := Operator.series) (by simp [Operator.builtins])

end Registry

end SeriesLang
