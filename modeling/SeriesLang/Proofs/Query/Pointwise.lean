import SeriesLang.Proofs.Query.Replay
import SeriesLang.Proofs.Series.Agreement

/-! # One instant at a time

An expression of operators that look at one instant at a time has at an instant a value that is made of the
values that the stored series have there. So one evaluation over the staircases of the stored series gives
the staircase of the expression.
-/

namespace SeriesLang

/-- The keywords of an application drop no points, and what they fill in is a number. -/
structure Application.FillsPointwise (call : Call) : Prop where
  prune : call.keyword? "prune" = none
  limit : call.keyword? "limit" = none
  fill : ∀ e text policy, call.keyword? "fill" = some e → e.text? = some text →
    FillPolicy.ofText? text = some policy → policy.isPointwise = true

namespace Staircase

variable {r : Registry} {catalog : Catalog} {e : Expr}

theorem keywordsArePointwise_fills {call : Call} (h : keywordsArePointwise call = true) :
    call.FillsPointwise := by
  unfold keywordsArePointwise at h
  split at h
  · cases h
  · rename_i plain
    simp only [Bool.or_eq_true, not_or, Bool.not_eq_true, Option.isSome_eq_false_iff,
      Option.isNone_iff_eq_none] at plain
    refine ⟨plain.1, plain.2, fun e text policy given stands found => ?_⟩
    rw [given] at h
    simp only [stands, found, Option.any_some] at h
    exact h

theorem callsArePointwise_ok {follow : String → Query Bool} {calls : List Call}
    (h : (callsArePointwise r follow calls).run catalog = .ok true) {call : Call} (hcall : call ∈ calls) :
    (r.get? call.op).any Operator.pushdown = true ∧ ∀ name, call.seriesName? = some name →
      keywordsArePointwise call = true ∧ (follow name).run catalog = .ok true := by
  induction calls with
  | nil => cases hcall
  | cons first rest ih =>
      simp only [callsArePointwise] at h
      split at h
      · rename_i pushdown
        cases named : first.seriesName? with
        | none =>
            simp only [named] at h
            rcases List.mem_cons.1 hcall with rfl | hcall
            · exact ⟨pushdown, fun name hname => by cases named.symm.trans hname⟩
            · exact ih h hcall
        | some name =>
            simp only [named] at h
            split at h
            · rename_i keywords
              obtain ⟨followed, hfollow, h⟩ := Query.ok_of_run_bind h
              cases followed with
              | false => cases h
              | true =>
                  rcases List.mem_cons.1 hcall with rfl | hcall
                  · refine ⟨pushdown, fun name' hname => ?_⟩
                    cases named.symm.trans hname
                    exact ⟨keywords, hfollow⟩
                  · exact ih h hcall
            · cases h
      · cases h

/-- All applications look at one instant at a time, and so do the formulas that they name. -/
def Pointwise (r : Registry) (catalog : Catalog) (e : Expr) : Prop :=
  ∃ room stack, (isPointwiseAt r room stack e).run catalog = .ok true

theorem Pointwise.calls (h : Pointwise r catalog e) : ∃ stack deeper,
    (callsArePointwise r (Query.followFormula stack true deeper) e.calls).run catalog = .ok true ∧
      ∀ go, deeper = some go → ∃ room, go = isPointwiseAt r room := by
  obtain ⟨room, stack, h⟩ := h
  cases room with
  | zero => exact ⟨stack, none, h, fun go hgo => by cases hgo⟩
  | succ room =>
      refine ⟨stack, some (isPointwiseAt r room), h, fun go hgo => ?_⟩
      cases hgo
      exact ⟨room, rfl⟩

theorem Pointwise.call (h : Pointwise r catalog e) {call : Call} (hcall : call ∈ e.calls) :
    (r.get? call.op).any Operator.pushdown = true ∧
      ∀ name, call.seriesName? = some name → keywordsArePointwise call = true := by
  obtain ⟨stack, deeper, h, -⟩ := h.calls
  obtain ⟨pushdown, named⟩ := callsArePointwise_ok h hcall
  exact ⟨pushdown, fun name hname => (named name hname).1⟩

theorem Pointwise.reaches (builtin : r = .builtin) (h : Pointwise r catalog e) {e' : Expr}
    (reached : e.Reaches r catalog e') : Pointwise r catalog e' := by
  induction reached with
  | self => exact h
  | formula _ reads named ih =>
      obtain ⟨call, hcall, name⟩ := Registry.mem_references builtin _ reads
      obtain ⟨stack, deeper, calls, rooms⟩ := ih.calls
      obtain ⟨-, followed⟩ := (callsArePointwise_ok calls hcall).2 _ name
      obtain ⟨go, found, hgo, named', followed⟩ := followFormula_ok followed
      cases named.symm.trans named'
      obtain ⟨room, rfl⟩ := rooms go hgo
      exact ⟨room, _, followed⟩

/-- Every application in an expression looks at one instant at a time, and the names that it reads are
    those of a set. -/
structure Local (r : Registry) (N : String → Prop) (e : Expr) : Prop where
  calls : ∀ call ∈ e.calls, (r.get? call.op).any Operator.pushdown = true ∧
    ∀ name, call.seriesName? = some name → keywordsArePointwise call = true
  reads : ∀ name ∈ r.references e, N name

variable {N : String → Prop}

/-- Applications that look at one instant at a time do not look at the revision of the query. -/
theorem Local.steady (builtin : r = .builtin) (h : Local r N e) : e.Steady := by
  intro call hcall
  have pushdown := (h.calls call hcall).1
  have absent : ∀ o ∈ Operator.builtins, o.pushdown = false → call.op ≠ o.name := by
    intro o known local' op
    rw [builtin, op, Registry.builtin_get?_of_mem known, Option.any_some, local'] at pushdown
    cases pushdown
  exact ⟨absent Operator.today (by simp [Operator.builtins]) rfl,
    absent Operator.asOf (by simp [Operator.builtins]) rfl⟩

theorem Local.argument {call : Call} (h : Local r N (.call call))
    (finder : (r.get? call.op).bind Operator.finder = none) {e : Expr} (he : e ∈ call.arguments) :
    Local r N e where
  calls inner hinner := h.calls inner (Expr.mem_calls_of_argument he hinner)
  reads name hname := h.reads name (Registry.mem_references_of_argument finder he hname)

end Staircase

namespace Env

variable {env env' : Env} {catalog : Catalog} {n levels levels' : Nat} {context context' : Context}

/-- Of the operators that look at one instant at a time, `series` alone is not plain. -/
theorem pushdown_cases (builtin : env.registry = .builtin) {call : Call} {o : Operator}
    (found : env.registry.get? call.op = some o)
    (pushdown : (env.registry.get? call.op).any Operator.pushdown = true) :
    o = Operator.series ∨ ∃ run, o.Plain run ∧ o.pushdown = true := by
  rw [found, Option.any_some] at pushdown
  rw [builtin] at found
  rcases Operator.builtin_cases (Registry.builtin_get? found).1 with rfl | rfl | rfl | rfl | rfl |
    ⟨run, plain⟩
  · exact .inl rfl
  · cases pushdown
  · cases pushdown
  · cases pushdown
  · cases pushdown
  · exact .inr ⟨run, plain, pushdown⟩

/-- A text that is bound to a fill keyword stands in the expression as it is. -/
theorem text?_of_fill (builtin : env.registry = .builtin) {e : Expr} {v : Value} {op text : String}
    {path : Path} (yields : env.Yields catalog n context e v)
    (checked : Signature.checkValue op path (.optional "fill" .fill) v = .ok (.str text)) :
    e.text? = some text := by
  have same : v = .str text := by
    cases v with
    | str given =>
        simp only [Signature.checkValue, Value.isNil, Bool.false_and, Bool.false_eq_true, if_false,
          Param.optional, ParamType.coerce?] at checked
        split at checked
        · rename_i found
          split at found
          · cases found
            cases checked
            rfl
          · cases found
        · cases checked
    | _ => cases checked
  subst same
  exact yields.text? builtin

/-- Keywords that look at one instant at a time drop no points and fill by constants only. -/
theorem Gathers.pointwise (builtin : env.registry = .builtin) {call : Call} {args : Arguments}
    (h : env.Gathers catalog n context Operator.series call args) (fills : call.FillsPointwise) :
    args.intKeyword? "prune" = none ∧ (Operator.seriesOptions args).Pointwise := by
  have distinct : (Operator.series.signature.keywords.map Param.name).Nodup := by decide
  have absent : ∀ p ∈ Operator.series.signature.keywords, p.missing = .nil →
      call.keyword? p.name = none → args.keyword p.name = .nil := by
    intro p hp missing none
    rcases h.keyword distinct hp with ⟨-, value⟩ | ⟨e, _, _, given, -⟩
    · rw [value, missing]
    · cases none.symm.trans given
  have prune := absent (.optional "prune" .int) (by simp [Operator.series]) rfl fills.prune
  have limit := absent (.optional "limit" .int) (by simp [Operator.series]) rfl fills.limit
  simp only [Param.optional] at prune limit
  refine ⟨by rw [Arguments.intKeyword?, prune], ?_, ?_⟩
  · rw [Operator.seriesOptions, Arguments.intKeyword?, limit]
    rfl
  · have fill : Param.optional "fill" .fill ∈ Operator.series.signature.keywords := by
      simp [Operator.series]
    rw [Operator.seriesOptions]
    rcases h.keyword distinct fill with ⟨-, value⟩ | ⟨e, v, path, given, yields, checked⟩
    · simp only [Param.optional] at value
      rw [value]
      rintro policy ⟨⟩
    · simp only [Param.optional] at given
      have key : args.keyword (Param.optional "fill" .fill).name = args.keyword "fill" := rfl
      rw [key] at checked
      generalize args.keyword "fill" = bound at checked ⊢
      intro policy hpolicy
      cases bound with
      | str text =>
          simp only [Option.mem_def] at hpolicy
          exact fills.fill e text policy given (text?_of_fill builtin yields checked) hpolicy
      | int k =>
          cases hpolicy
          rfl
      | float x =>
          cases hpolicy
          rfl
      | _ => cases hpolicy

/-- Evaluations of operators that look at one instant at a time stand in a relation that these operators
    keep, if what is read by name does. -/
theorem Yields.pointwise {S : Series → Series → Prop} (closed : Series.Closed S)
    (builtin : env.registry = .builtin) (builtin' : env'.registry = .builtin) {N : String → Prop}
    (formulas : ∀ name, N name → ∀ tree, catalog name = .ok (some tree) →
      Staircase.Local env.registry N tree)
    (fetched : ∀ {n n' name s s'}, N name →
      (∀ tree, catalog name = .ok (some tree) → ∀ s s',
        env.Yields catalog n context tree (.series s) →
        env'.Yields catalog n' context' tree (.series s') → S s s') →
      env.Fetches catalog n context name s → env'.Fetches catalog n' context' name s' →
      ∀ options : SeriesOptions, options.Pointwise → S (s.withOptions options) (s'.withOptions options))
    {e : Expr} (covered : Staircase.Local env.registry N e) {v v' : Value}
    (h : env.Yields catalog levels context e v) (h' : env'.Yields catalog levels' context' e v') :
    Value.Related S v v' := by
  refine Yields.related (Q := fun c c' e => Staircase.Local env.registry N e ∧ c = context ∧
    c' = context') ?_ ⟨covered, rfl, rfl⟩ h h'
  rintro n n' _ _ call v v' ⟨covered, rfl, rfl⟩ ih h h'
  have steady := covered.steady builtin
  obtain ⟨pushdown, keywords⟩ := covered.calls call (Expr.mem_calls_self call)
  obtain ⟨_, o, found, -⟩ := h.call
  have found' : env'.registry.get? call.op = some o := by rw [builtin', ← builtin, found]
  rcases pushdown_cases builtin found pushdown with rfl | ⟨run, plain, pushdown⟩
  · obtain ⟨args, name, s, gathers, text, fetches, rfl⟩ := h.series found
    obtain ⟨args', name', s', gathers', text', fetches', rfl⟩ := h'.series found'
    have related := gathers.related gathers' (by decide) (fun e he _ _ h h' =>
      h.alike builtin builtin' (steady.argument he) h')
    cases related.textAt text text'
    obtain ⟨given, reads⟩ := gathers.mem_references builtin found text
    have hname := covered.reads name reads
    obtain ⟨whole, pointwise⟩ :=
      gathers.pointwise builtin (Staircase.keywordsArePointwise_fills (keywords name given))
    apply Value.Related.series
    rw [← Operator.shaped_related related, Operator.shaped, Operator.shaped, whole]
    apply fetched hname _ fetches fetches' _ pointwise
    intro tree named s s' yields yields'
    cases ih ⟨formulas name hname tree named, rfl, rfl⟩ yields yields' with
    | scalar scalar => cases scalar
    | series related => exact related
  · have finder : (env.registry.get? call.op).bind Operator.finder = none := by
      rw [found]
      exact plain.finder
    obtain ⟨args, gathers, made⟩ := h.plain found plain
    obtain ⟨args', gathers', made'⟩ := h'.plain found' plain
    have related := gathers.related gathers' plain.defaults
      (fun e he v v' h h' => ih ⟨covered.argument finder he, rfl, rfl⟩ h h')
    exact plain.pointwise pushdown closed args args' v v' related made made'

end Env

end SeriesLang
