import SeriesLang.Proofs.Operator.Parallel
import SeriesLang.Proofs.Operator.Plain

/-! # The clock

As long as a revision is set, no operator sees the time of the query: run in two contexts that differ in
their clocks only, it makes the same requests, in contexts that differ in their clocks only.
-/

namespace SeriesLang

variable {α β : Type} {R : Instant → Prop}

/-- Contexts with the same window and the same revision, one of a set of dates. Their clocks may differ. -/
inductive Context.Twin (R : Instant → Prop) : Context → Context → Prop
  | of {window r now now'} (inside : R r) :
      Context.Twin R { window, revision := some r, now } { window, revision := some r, now := now' }

variable {context context' : Context}

namespace Context.Twin

theorem window (h : context.Twin R context') : context'.window = context.window := by
  cases h
  rfl

theorem revision (h : context.Twin R context') : context'.revision = context.revision := by
  cases h
  rfl

theorem moved (h : context.Twin R context') (window : Window) :
    Context.Twin R { context with window } { context' with window } := by
  cases h with
  | of inside => exact .of inside

end Context.Twin

/-- Computations that make the same requests in contexts that are twins, and come to the same end if they
    are answered in the same way. -/
inductive Body.Twin (R : Instant → Prop) : Body α → Body α → Prop
  | done (a : α) : Body.Twin R (.done a) (.done a)
  | fail (e : Error) : Body.Twin R (.fail e) (.fail e)
  | eval {context context' e slot next next'} (contexts : context.Twin R context')
      (rest : ∀ v, Body.Twin R (next v) (next' v)) :
      Body.Twin R (.eval context e slot next) (.eval context' e slot next')
  | fetch {context context' name next next'} (contexts : context.Twin R context')
      (rest : ∀ s, Body.Twin R (next s) (next' s)) :
      Body.Twin R (.fetch context name next) (.fetch context' name next')

namespace Body.Twin

theorem bind {b b' : Body α} (h : b.Twin R b') {f f' : α → Body β} (rest : ∀ a, (f a).Twin R (f' a)) :
    (b.bind f).Twin R (b'.bind f') := by
  induction h with
  | done a => exact rest a
  | fail e => exact .fail e
  | eval contexts _ ih => exact .eval contexts ih
  | fetch contexts _ ih => exact .fetch contexts ih

theorem ofExcept (r : Except Error α) : (Body.ofExcept r).Twin R (.ofExcept r) := by
  cases r with
  | ok a => exact .done a
  | error e => exact .fail e

end Body.Twin

theorem Body.Parallel.twin {b b' : Body α} (h : b.Parallel ⟨Context.Twin R, Eq, Eq⟩ b') :
    b.Twin R b' := by
  induction h with
  | done a => exact .done a
  | fail errors =>
      cases errors
      exact .fail _
  | eval contexts values _ ih =>
      cases values
      exact .eval contexts ih

namespace Operator

theorem twin_readSeries (h : context.Twin R context') (args : Arguments) :
    (readSeries { args with context := some context }).Twin R
      (readSeries { args with context := some context' }) :=
  (Body.Twin.ofExcept (args.textAt 0)).bind fun _ => .fetch h fun _ => .done _

theorem twin_makeConstant (h : context.Twin R context') (args : Arguments) :
    (Body.ofExcept (makeConstant { args with context := some context })).Twin R
      (.ofExcept (makeConstant { args with context := some context' })) := by
  cases h
  exact .ofExcept _

theorem twin_readToday (h : context.Twin R context') (args : Arguments) :
    (Body.ofExcept (readToday { args with context := some context })).Twin R
      (.ofExcept (readToday { args with context := some context' })) := by
  cases h
  exact .ofExcept _

theorem twin_shiftSeries (h : context.Twin R context') (call : Call) (path : Path) :
    (shiftSeries call context path).Twin R (shiftSeries call context' path) :=
  (parallel_shiftSeries (.refl (fun _ => rfl) call) (.refl (fun _ => rfl) path) h h.window h.moved).twin

theorem twin_readAsOf (free : ∀ r, R r) (h : context.Twin R context') (call : Call) (path : Path) :
    (readAsOf call context path).Twin R (readAsOf call context' path) := by
  refine (parallel_readAsOf (.refl (fun _ => rfl) call) (.refl (fun _ => rfl) path) h fun r => ?_).twin
  rw [h.window]
  exact .of (free r)

/-- The built-in operators do not see the time of a query at a set revision. -/
theorem builtin_twin {o : Operator} (known : o = series ∨ o = constant ∨ o = today ∨
    o = timeShifted ∨ o = asOf ∨ ∃ run, o.Plain run) (free : o = asOf → ∀ r, R r)
    (h : context.Twin R context') :
    match o.implementation with
    | .values run => ∀ args : Arguments,
        (run { args with context := if o.wantsContext then some context else none }).Twin R
          (run { args with context := if o.wantsContext then some context' else none })
    | .tree run => ∀ (call : Call) (path : Path),
        (run call context path).Twin R (run call context' path) := by
  rcases known with rfl | rfl | rfl | rfl | rfl | ⟨run, plain⟩
  · exact twin_readSeries h
  · exact twin_makeConstant h
  · exact twin_readToday h
  · exact twin_shiftSeries h
  · exact twin_readAsOf (free rfl) h
  · rw [plain.implementation, plain.context]
    exact fun args => .ofExcept _

end Operator

end SeriesLang
