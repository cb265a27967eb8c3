import Mathlib.Logic.Relation
import SeriesLang.Proofs.Query.Refinement
import SeriesLang.Proofs.Series.Within
import SeriesLang.Query.Inline

/-! # Formulas written out

To read a formula by its name is to evaluate it, to cut its series to the window and to take away its options.
Where its series is cut and has no options anyway, the formula can stand in place of its name.
-/

namespace SeriesLang

namespace Expr

variable {catalog : Catalog} {deeper : Expr → Query Expr} {P : Expr → Expr → Prop}

/-- A call names a formula, and says nothing of how it is to be treated. -/
def Names (catalog : Catalog) (call : Call) (tree : Expr) : Prop :=
  ∃ name, call.seriesName? = some name ∧ call.kwargs = [] ∧ catalog name = .ok (some tree)

/-- An expression names a formula that is written in place of its name. -/
def Includes (catalog : Catalog) (e tree : Expr) : Prop :=
  ∃ call ∈ e.calls, Names catalog call tree

theorem Includes.of_argument {call : Call} {e tree : Expr} (he : e ∈ call.arguments)
    (h : Includes catalog e tree) : Includes catalog (.call call) tree := by
  obtain ⟨inner, hinner, names⟩ := h
  exact ⟨inner, mem_calls_of_argument he hinner, names⟩

theorem transGen_includes_of_argument {call : Call} {e tree : Expr} (he : e ∈ call.arguments)
    (h : Relation.TransGen (Includes catalog) e tree) :
    Relation.TransGen (Includes catalog) (.call call) tree := by
  obtain ⟨first, edge, rest⟩ := Relation.TransGen.head'_iff.1 h
  exact .head' (edge.of_argument he) rest

/-- A relation between expressions without and with formulas written in them: it may be shown for an
    expression from its arguments, and for a name from what is written deeper. -/
structure Written (catalog : Catalog) (deeper : Expr → Query Expr) (P : Expr → Expr → Prop) : Prop where
  literal : ∀ l, P (.literal l) (.literal l)
  symbol : ∀ name, P (.symbol name) (.symbol name)
  formula : ∀ {call tree e'}, Names catalog call tree → (deeper tree).run catalog = .ok e' →
    P (.call call) e'
  call : ∀ {call call'}, call.Similar P call' → P (.call call) (.call call')

mutual

/-- What becomes of an expression when formulas are written in it, by cases. -/
theorem Written.inlineWith (w : Written catalog deeper P) : (e e' : Expr) →
    (Expr.inlineWith deeper e).run catalog = .ok e' → P e e'
  | .literal l, _, h => by
    cases h
    exact w.literal l
  | .symbol name, _, h => by
    cases h
    exact w.symbol name
  | .call ⟨op, args, kwargs⟩, e', h => by
    rw [Expr.inlineWith] at h
    have below : ((Expr.inlineArgs deeper args).bind fun args =>
        (Expr.inlineKwargs deeper kwargs).bind fun kwargs =>
        .done (.call ⟨op, args, kwargs⟩)).run catalog = .ok e' → P (.call ⟨op, args, kwargs⟩) e' := by
      intro h
      obtain ⟨args', hargs, h⟩ := Query.ok_of_run_bind h
      obtain ⟨kwargs', hkwargs, h⟩ := Query.ok_of_run_bind h
      cases h
      exact w.call ⟨rfl, w.inlineArgs args args' hargs, w.inlineKwargs kwargs kwargs' hkwargs⟩
    split at h
    · rename_i name reads
      split at h
      · rename_i bare
        obtain ⟨tree, named, h⟩ := Query.ok_of_run_bind h
        rw [Query.run_formula] at named
        cases tree with
        | some tree => exact w.formula ⟨name, reads, List.isEmpty_iff.1 bare, named⟩ h
        | none => exact below h
      · exact below h
    · exact below h

theorem Written.inlineArgs (w : Written catalog deeper P) : (es es' : List Expr) →
    (Expr.inlineArgs deeper es).run catalog = .ok es' → List.Forall₂ P es es'
  | [], _, h => by
    cases h
    exact .nil
  | e :: rest, _, h => by
    rw [Expr.inlineArgs] at h
    obtain ⟨e', first, h⟩ := Query.ok_of_run_bind h
    obtain ⟨rest', others, h⟩ := Query.ok_of_run_bind h
    cases h
    exact .cons (w.inlineWith e e' first) (w.inlineArgs rest rest' others)

theorem Written.inlineKwargs (w : Written catalog deeper P) : (es es' : List (String × Expr)) →
    (Expr.inlineKwargs deeper es).run catalog = .ok es' →
    List.Forall₂ (fun p q => p.1 = q.1 ∧ P p.2 q.2) es es'
  | [], _, h => by
    cases h
    exact .nil
  | (_, e) :: rest, _, h => by
    rw [Expr.inlineKwargs] at h
    obtain ⟨e', first, h⟩ := Query.ok_of_run_bind h
    obtain ⟨rest', others, h⟩ := Query.ok_of_run_bind h
    cases h
    exact .cons ⟨rfl, w.inlineWith e e' first⟩ (w.inlineKwargs rest rest' others)

end

/-- An induction over all formulas that are written in an expression. -/
theorem inlineAt_induct (literal : ∀ l, P (.literal l) (.literal l))
    (symbol : ∀ name, P (.symbol name) (.symbol name))
    (formula : ∀ {call tree e'}, Names catalog call tree → P tree e' → P (.call call) e')
    (call : ∀ {call call'}, call.Similar P call' → P (.call call) (.call call')) {room : Nat}
    {e e' : Expr} (h : (inlineAt room e).run catalog = .ok e') : P e e' := by
  induction room generalizing e e' with
  | zero => cases h
  | succ room ih =>
      exact Written.inlineWith ⟨literal, symbol, fun named h => formula named (ih h), call⟩ e e' h

end Expr

namespace Series

theorem restrict_of_within {s : Series} {w : Window} (h : s.Within (fun t => w.contains t)) :
    s.restrict w = s := by
  cases s with
  | mk points options ascending defined =>
      have all : points.filter (fun p => w.contains p.1) = points := List.filter_eq_self.2 h
      simp only [restrict, retain, all]

theorem withOptions_of_eq {s : Series} {options : SeriesOptions} (h : s.options = options) :
    s.withOptions options = s := by
  subst h
  rfl

end Series

namespace Env

variable {env : Env} {catalog : Catalog} {n : Nat} {context : Context}

/-- The series of an expression have no points outside of the window, whatever it is. -/
def Contained (env : Env) (catalog : Catalog) (e : Expr) : Prop :=
  ∀ levels context s, env.Yields catalog levels context e (.series s) →
    s.Within (fun t => context.window.contains t)

/-- The series of an expression have no options. -/
def Unmarked (env : Env) (catalog : Catalog) (e : Expr) : Prop :=
  ∀ levels context s, env.Yields catalog levels context e (.series s) → s.options = {}

/-- Without keywords a series is taken as it is. -/
theorem Gathers.shaped_bare {call : Call} {args : Arguments}
    (h : env.Gathers catalog n context Operator.series call args) (bare : call.kwargs = []) (s : Series) :
    Operator.shaped args s = s.withOptions {} := by
  have missing : ∀ p ∈ Operator.series.signature.keywords, args.keyword p.name = p.missing := by
    intro p hp
    rcases h.keyword (by decide) hp with ⟨-, missing⟩ | ⟨e, _, _, given, -⟩
    · exact missing
    · rw [Application.keyword?, bare] at given
      cases given
  have fill := missing (.optional "fill" .fill) (by simp [Operator.series])
  have limit := missing (.optional "limit" .int) (by simp [Operator.series])
  have weight := missing (.optional "weight" .number) (by simp [Operator.series])
  have prune := missing (.optional "prune" .int) (by simp [Operator.series])
  simp only [Param.optional, Param.missing, Option.getD_some] at fill limit weight prune
  simp only [Operator.shaped, Operator.seriesOptions, Arguments.intKeyword?,
    Arguments.numberKeyword?, fill, limit, weight, prune]
  rfl

theorem series_found (builtin : env.registry = .builtin) {call : Call} {name : String}
    (reads : call.seriesName? = some name) :
    call.op = "series" ∧ env.registry.get? call.op = some Operator.series := by
  have op : call.op = "series" := by
    unfold Application.seriesName? at reads
    split at reads
    · assumption
    · cases reads
  refine ⟨op, ?_⟩
  rw [builtin, op]
  exact Registry.builtin_get?_series

/-- What a name without keywords yields that stands for a formula: the series of the formula, cut to the
    window and without options. -/
theorem Yields.named (builtin : env.registry = .builtin) (free : env.leaves = []) {call : Call}
    {tree : Expr} (names : Expr.Names catalog call tree) {v : Value}
    (h : env.Yields catalog (n + 1) context (.call call) v) :
    ∃ s, env.Yields catalog n context tree (.series s) ∧
      v = .series ((s.restrict context.window).withOptions {}) := by
  obtain ⟨name, reads, bare, stored⟩ := names
  obtain ⟨op, found⟩ := series_found builtin reads
  obtain ⟨args, other, s, gathers, text, fetched, rfl⟩ := h.series found
  have same : other = name := by
    have given := gathers.seriesName? builtin op text
    rw [reads] at given
    exact (Option.some.inj given).symm
  subst same
  rw [gathers.shaped_bare bare]
  cases fetched with
  | leaf given =>
      rw [free] at given
      cases given
  | stored _ unnamed _ => cases stored.symm.trans unnamed
  | formula _ named yields =>
      cases stored.symm.trans named
      exact ⟨_, yields, rfl⟩

/-- A formula can stand in place of its name if its series are cut and unmarked. -/
theorem Refines.of_names (builtin : env.registry = .builtin) (free : env.leaves = []) {call : Call}
    {tree e' : Expr} (names : Expr.Names catalog call tree) (contained : env.Contained catalog tree)
    (unmarked : env.Unmarked catalog tree) (h : ∀ n, env.Refines catalog n tree e') (n : Nat) :
    env.Refines catalog n (.call call) e' := by
  intro context v yields levels deeper path slot
  cases n with
  | zero => exact absurd yields not_yields_zero
  | succ n =>
      obtain ⟨s, below, rfl⟩ := yields.named builtin free names
      rw [Series.restrict_of_within (contained _ _ _ below),
        Series.withOptions_of_eq (unmarked _ _ _ below)]
      exact h n context _ below levels (Nat.le_of_succ_le deeper) path slot

/-- To write formulas in an expression keeps its values if the series of those formulas are cut and
    unmarked. -/
theorem refines_inlineAt (builtin : env.registry = .builtin) (free : env.leaves = []) {room : Nat}
    {e e' : Expr} (written : (Expr.inlineAt room e).run catalog = .ok e')
    (sealed : ∀ tree, Relation.TransGen (Expr.Includes catalog) e tree →
      env.Contained catalog tree ∧ env.Unmarked catalog tree) (n : Nat) :
    env.Refines catalog n e e' := by
  revert sealed n
  refine Expr.inlineAt_induct (P := fun e e' => (∀ tree,
      Relation.TransGen (Expr.Includes catalog) e tree →
        env.Contained catalog tree ∧ env.Unmarked catalog tree) →
      ∀ n, env.Refines catalog n e e')
    (fun l _ n => refines_literal l) (fun name _ n => refines_symbol name) ?_ ?_ written
  · intro call tree e' names ih sealed n
    have edge : Expr.Includes catalog (.call call) tree := ⟨call, Expr.mem_calls_self call, names⟩
    obtain ⟨contained, unmarked⟩ := sealed tree (.single edge)
    exact .of_names builtin free names contained unmarked
      (ih fun other path => sealed other (.head edge path)) n
  · intro call call' similar sealed n
    refine .of_similar builtin (similar.imp fun e he e' h => h fun tree path => ?_) n
    exact sealed tree (Expr.transGen_includes_of_argument he path)

end Env

end SeriesLang
