import SeriesLang.Proofs.Query.Bounds
import SeriesLang.Proofs.Query.Folded
import SeriesLang.Proofs.Query.Inlined
import SeriesLang.Proofs.Query.Pointwise

/-! # The value of an expanded formula

An expanded formula has the points of the formula if the formulas that are written out keep to the window and
give series without options. So do those whose operators look at one instant at a time: they make no points
where their arguments have none, and options only come from keywords.
-/

namespace SeriesLang

namespace Series

theorem closed_unmarked : Closed (fun s _ => s.options = {}) where
  mapValues h _ := h
  retain h _ := h
  strict _ _ := options_ofPoints _
  lenient _ _ _ := options_ofPoints _
  patch _ := options_ofPoints _

end Series

/-- Every application in an expression is of an operator that looks at one instant at a time. -/
def Registry.Pushes (r : Registry) (e : Expr) : Prop :=
  ∀ call ∈ e.calls, (r.get? call.op).any Operator.pushdown = true

instance (r : Registry) (e : Expr) : Decidable (r.Pushes e) :=
  inferInstanceAs (Decidable (∀ call ∈ _, _))

/-- No series in an expression is read with keywords. -/
def Expr.Bare (e : Expr) : Prop :=
  ∀ call ∈ e.calls, call.op = "series" → call.kwargs = []

instance (e : Expr) : Decidable e.Bare :=
  inferInstanceAs (Decidable (∀ call ∈ _, _))

namespace Env

variable {env : Env} {catalog : Catalog} {name : String} {context : Context} {levels : Nat}

/-- The formulas that are written out for a name keep to the window, whatever it is, and the series of those
    that stand in place of their names have no options. -/
structure Expandable (env : Env) (catalog : Catalog) (name : String) : Prop where
  contained : ∀ e, catalog name = .ok (some e) → env.Contained catalog e
  sealed : ∀ e tree, catalog name = .ok (some e) → Relation.TransGen (Expr.Includes catalog) e tree →
    env.Contained catalog tree ∧ env.Unmarked catalog tree

/-- Only applications yield series. -/
theorem Yields.isCall {levels : Nat} {e : Expr} {s : Series}
    (h : env.Yields catalog levels context e (.series s)) : ∃ call, e = .call call := by
  cases e with
  | literal l =>
      have value := h.literal
      cases l <;> cases value
  | symbol name => cases h.symbol
  | call call => exact ⟨call, rfl⟩

/-- An expanded formula has the points that the name of the formula has. -/
theorem Expandable.evaluate (h : env.Expandable catalog name) (builtin : env.registry = .builtin)
    (free : env.leaves = []) {e written : Expr} (stored : catalog name = .ok (some e))
    (inlined : e.inlineFormulas.run catalog = .ok written) {v : Value}
    (evaluated : (env.evaluate context (.series name)).run catalog = .ok v) :
    ∃ s s' : Series, v = .series s ∧ s'.points = s.points ∧
      (env.evaluate context written.foldConstants).run catalog = .ok (.series s') := by
  unfold Env.evaluate at evaluated ⊢
  have yields : env.Yields catalog env.maxDepth context (.series name) v := ⟨.root, "", evaluated⟩
  revert yields
  cases depth : env.maxDepth with
  | zero => exact fun yields => absurd yields not_yields_zero
  | succ n =>
      intro yields
      have names : Expr.Names catalog ⟨"series", [.literal (.str name)], []⟩ e := ⟨name, rfl, rfl, stored⟩
      obtain ⟨s, below, rfl⟩ := yields.named builtin free names
      have refines : env.Refines catalog n e written.foldConstants :=
        (refines_inlineAt builtin free inlined (fun tree => h.sealed e tree stored) n).trans
          (refines_foldConstants builtin written n)
      refine ⟨_, s, rfl, ?_, refines context _ below (n + 1) (Nat.le_succ n) .root ""⟩
      rw [Series.restrict_of_within (h.contained e stored _ _ _ below)]
      rfl

/-- What holds of the series that an expression reads holds of its own series, if the operations on series
    keep it that look at one instant at a time. -/
theorem Yields.pushed (builtin : env.registry = .builtin) {P : Series → Prop}
    (closed : Series.Closed (fun s _ => P s)) {e : Expr} (pushes : env.registry.Pushes e)
    (read : ∀ {n args name s call}, call ∈ e.calls → env.registry.get? call.op = some .series →
      env.Gathers catalog n context .series call args → env.Fetches catalog n context name s →
      P (Operator.shaped args s)) {s : Series}
    (h : env.Yields catalog levels context e (.series s)) : P s := by
  suffices related : Value.Related (fun s _ => P s) (.series s) (.series s) by
    cases related with
    | scalar scalar => cases scalar
    | series kept => exact kept
  refine Yields.related (Q := fun c _ inner => c = context ∧ ∀ call ∈ inner.calls, call ∈ e.calls) ?_
    ⟨rfl, fun _ h => h⟩ h h
  rintro n n' _ context' call v v' ⟨rfl, inside⟩ ih h h'
  have hcall := inside call (Expr.mem_calls_self call)
  obtain ⟨_, o, found, -⟩ := h.call
  rcases pushdown_cases builtin found (pushes call hcall) with rfl | ⟨run, plain, pushdown⟩
  · obtain ⟨args, name, s, gathers, -, fetched, rfl⟩ := h.series found
    obtain ⟨_, _, _, -, -, -, rfl⟩ := h'.series found
    exact .series (read hcall found gathers fetched)
  · obtain ⟨args, gathers, made⟩ := h.plain found plain
    obtain ⟨args', gathers', made'⟩ := h'.plain found plain
    have related := gathers.related gathers' plain.defaults (fun e he v v' h h' =>
      ih ⟨rfl, fun inner hinner => inside inner (Expr.mem_calls_of_argument he hinner)⟩ h h')
    exact plain.pointwise pushdown closed args args' v v' related made made'

theorem contained_of_pushes (builtin : env.registry = .builtin) {e : Expr}
    (pushes : env.registry.Pushes e) : env.Contained catalog e :=
  fun _ context _ h => h.pushed builtin (Series.closed_within fun t => context.window.contains t) pushes
    fun _ _ _ fetched => Operator.Within.shaped fetched.within _

/-- Without keywords nothing marks a series. -/
theorem unmarked_of_bare (builtin : env.registry = .builtin) {e : Expr}
    (pushes : env.registry.Pushes e) (bare : e.Bare) : env.Unmarked catalog e := by
  refine fun _ context _ h => h.pushed builtin Series.closed_unmarked pushes
    fun hcall found gathers _ => ?_
  rw [builtin] at found
  rw [gathers.shaped_bare (bare _ hcall (Registry.builtin_get? found).2.symm)]
  rfl

/-- Formulas of such operators can be written out, if they do without keywords of `series`, but for the
    formula of the name itself. -/
theorem Expandable.of_pushes (builtin : env.registry = .builtin)
    (all : ∀ other tree, catalog other = .ok (some tree) → Registry.builtin.Pushes tree ∧
      (other ≠ name → tree.Bare) ∧ name ∉ tree.seriesNames) : env.Expandable catalog name where
  contained e stored := contained_of_pushes builtin (builtin ▸ (all name e stored).1)
  sealed e tree stored path := by
    have reached : ∀ {tree}, Relation.ReflTransGen (Expr.Includes catalog) e tree →
        ∃ other, catalog other = .ok (some tree) := by
      intro tree path
      rcases Relation.ReflTransGen.cases_tail path with rfl | ⟨_, -, _, _, other, -, -, answer⟩
      · exact ⟨name, stored⟩
      · exact ⟨other, answer⟩
    obtain ⟨before, path, call, hcall, other, reads, -, answer⟩ := Relation.TransGen.tail'_iff.1 path
    obtain ⟨outer, hbefore⟩ := reached path
    obtain ⟨-, -, apart⟩ := all outer before hbefore
    obtain ⟨pushes, bare, -⟩ := all other tree answer
    have different : other ≠ name := by
      rintro rfl
      exact apart (List.mem_filterMap.2 ⟨call, hcall, reads⟩)
    have pushes : env.registry.Pushes tree := builtin ▸ pushes
    exact ⟨contained_of_pushes builtin pushes, unmarked_of_bare builtin pushes (bare different)⟩

end Env

end SeriesLang
