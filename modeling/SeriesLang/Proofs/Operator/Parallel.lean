import SeriesLang.Operator.Builtin
import SeriesLang.Proofs.Operator.Related

/-! # Parallel runs

An operator that receives its application sees nothing of it but the operator, which arguments there are and
the values that they have. Run on two applications to related arguments, in related contexts and at two places,
it asks for the values of related expressions in related contexts, and it fails with the same message.
-/

namespace SeriesLang

variable {α β : Type}

/-- The expressions in the arguments of an application. -/
def Application.arguments (call : Call) : List Expr :=
  call.args ++ call.kwargs.map Prod.snd

theorem Application.mem_arguments_of_getElem? {call : Call} {i : Nat} {e : Expr}
    (h : call.args[i]? = some e) : e ∈ call.arguments :=
  List.mem_append.2 (.inl (List.mem_of_getElem? h))

theorem Application.mem_arguments_of_keyword? {call : Call} {name : String} {e : Expr}
    (h : call.keyword? name = some e) : e ∈ call.arguments :=
  List.mem_append.2 (.inr (List.mem_map.2 ⟨(name, e), Sorted.mem_of_get? h, rfl⟩))

namespace Application

/-- Applications of one operator to arguments that are related in pairs. -/
structure Similar (R : Expr → Expr → Prop) (call call' : Call) : Prop where
  op : call.op = call'.op
  args : List.Forall₂ R call.args call'.args
  kwargs : List.Forall₂ (fun p q => p.1 = q.1 ∧ R p.2 q.2) call.kwargs call'.kwargs

variable {R : Expr → Expr → Prop} {call call' : Call}

theorem Similar.imp {S : Expr → Expr → Prop} (h : call.Similar R call')
    (weaker : ∀ e ∈ call.arguments, ∀ e', R e e' → S e e') : call.Similar S call' where
  op := h.op
  args := by
    have both := (List.forall₂_and_left (p := (· ∈ call.arguments)) _ _).2
      ⟨fun e he => List.mem_append_left _ he, h.args⟩
    exact both.imp fun e e' both => weaker e both.1 e' both.2
  kwargs := by
    have both := (List.forall₂_and_left (p := fun p => p.2 ∈ call.arguments) _ _).2
      ⟨fun p hp => List.mem_append_right _ (List.mem_map_of_mem hp), h.kwargs⟩
    exact both.imp fun p q both => ⟨both.2.1, weaker p.2 both.1 q.2 both.2.2⟩

theorem Similar.refl (h : ∀ e, R e e) (call : Call) : call.Similar R call :=
  ⟨rfl, List.forall₂_same.2 fun e _ => h e, List.forall₂_same.2 fun p _ => ⟨rfl, h p.2⟩⟩

theorem Similar.getElem? (h : call.Similar R call') (i : Nat) :
    (call.args[i]? = none ∧ call'.args[i]? = none) ∨
      ∃ e e', call.args[i]? = some e ∧ call'.args[i]? = some e' ∧ R e e' := by
  by_cases hi : i < call.args.length
  · have hi' : i < call'.args.length := h.args.length_eq ▸ hi
    exact .inr ⟨_, _, List.getElem?_eq_getElem hi, List.getElem?_eq_getElem hi', h.args.get hi hi'⟩
  · have hi' : ¬ i < call'.args.length := h.args.length_eq ▸ hi
    exact .inl ⟨List.getElem?_eq_none (Nat.le_of_not_lt hi),
      List.getElem?_eq_none (Nat.le_of_not_lt hi')⟩

theorem Similar.keyword? (h : call.Similar R call') (name : String) :
    (call.keyword? name = none ∧ call'.keyword? name = none) ∨
      ∃ e e', call.keyword? name = some e ∧ call'.keyword? name = some e' ∧ R e e' :=
  Sorted.get?_forall₂ h.kwargs name

theorem names_eq {kwargs kwargs' : List (String × Expr)}
    (h : List.Forall₂ (fun p q => p.1 = q.1 ∧ R p.2 q.2) kwargs kwargs') :
    kwargs.map Prod.fst = kwargs'.map Prod.fst := by
  induction h with
  | nil => rfl
  | cons first _ ih => rw [List.map_cons, List.map_cons, first.1, ih]

end Application

/-- What parallel computations may differ in: the contexts and the expressions of their requests, and the
    errors that they fail with. -/
structure Body.Link where
  contexts : Context → Context → Prop
  values : Expr → Expr → Prop
  errors : Error → Error → Prop

/-- Whatever is reported at one place may be reported at the other one in its stead. -/
structure Body.Link.Reports (link : Body.Link) (path path' : Path) : Prop where
  evaluation : ∀ op message, link.errors (.evaluation op path message) (.evaluation op path' message)
  typeMismatch : ∀ op param expected found, link.errors (.typeMismatch op path param expected found)
    (.typeMismatch op path' param expected found)

theorem Body.Link.Reports.refl {link : Body.Link} (h : ∀ e, link.errors e e) (path : Path) :
    link.Reports path path :=
  ⟨fun _ _ => h _, fun _ _ _ _ => h _⟩

/-- Computations that ask for the values of linked expressions in linked contexts, and come to the same end,
    up to linked errors, if they are answered in the same way. -/
inductive Body.Parallel (link : Body.Link) : Body α → Body α → Prop
  | done (a : α) : Body.Parallel link (.done a) (.done a)
  | fail {e e'} (errors : link.errors e e') : Body.Parallel link (.fail e) (.fail e')
  | eval {context context' e e' slot next next'} (contexts : link.contexts context context')
      (values : link.values e e') (rest : ∀ v, Body.Parallel link (next v) (next' v)) :
      Body.Parallel link (.eval context e slot next) (.eval context' e' slot next')

variable {link : Body.Link} {call call' : Call} {context context' : Context} {path path' : Path}

namespace Body.Parallel

theorem bind {b b' : Body α} (h : b.Parallel link b') {f f' : α → Body β}
    (rest : ∀ a, (f a).Parallel link (f' a)) : (b.bind f).Parallel link (b'.bind f') := by
  induction h with
  | done a => exact rest a
  | fail errors => exact .fail errors
  | eval contexts values _ ih => exact .eval contexts values ih

theorem value {e e' : Expr} (values : link.values e e') (contexts : link.contexts context context')
    (slot : String) : (Body.value context e slot).Parallel link (.value context' e' slot) :=
  .eval contexts values .done

end Body.Parallel

namespace Operator

theorem parallel_intSlot (h : call.Similar link.values call') (reports : link.Reports path path')
    (contexts : link.contexts context context') (name : String) :
    (intSlot call name context path).Parallel link (intSlot call' name context' path') := by
  unfold intSlot
  rcases h.keyword? name with ⟨absent, absent'⟩ | ⟨e, e', given, given', related⟩
  · rw [absent, absent']
    exact .done 0
  · rw [given, given', h.op]
    refine (Body.Parallel.value related contexts name).bind fun v => ?_
    cases v with
    | int n => exact .done n
    | _ => exact .fail (reports.typeMismatch ..)

theorem parallel_seriesSlot (h : call.Similar link.values call') (reports : link.Reports path path')
    (contexts : link.contexts context context') (index : Nat) :
    (seriesSlot call index context path).Parallel link (seriesSlot call' index context' path') := by
  unfold seriesSlot
  rcases h.getElem? index with ⟨absent, absent'⟩ | ⟨e, e', given, given', related⟩
  · rw [absent, absent', h.op]
    exact .fail (reports.evaluation ..)
  · rw [given, given', h.op]
    refine (Body.Parallel.value related contexts _).bind fun v => ?_
    cases v with
    | series s => exact .done s
    | _ => exact .fail (reports.typeMismatch ..)

theorem parallel_instantSlot (h : call.Similar link.values call') (reports : link.Reports path path')
    (contexts : link.contexts context context') (index : Nat) (param : String) :
    (instantSlot call index param context path).Parallel link
      (instantSlot call' index param context' path') := by
  unfold instantSlot
  rcases h.getElem? index with ⟨absent, absent'⟩ | ⟨e, e', given, given', related⟩
  · rw [absent, absent', h.op]
    exact .fail (reports.evaluation ..)
  · rw [given, given', h.op]
    refine (Body.Parallel.value related contexts _).bind fun v => ?_
    cases v with
    | timestamp t => exact .done t
    | str text =>
        dsimp only
        split
        · exact .done _
        · exact .fail (reports.evaluation ..)
    | _ => exact .fail (reports.typeMismatch ..)

/-- A shift reads over another window, and its value has what the window of the query leaves. -/
theorem parallel_shiftSeries (h : call.Similar link.values call') (reports : link.Reports path path')
    (contexts : link.contexts context context') (window : context'.window = context.window)
    (moved : ∀ window, link.contexts { context with window } { context' with window }) :
    (shiftSeries call context path).Parallel link (shiftSeries call' context' path') := by
  refine (parallel_intSlot h reports contexts _).bind fun weeks =>
    (parallel_intSlot h reports contexts _).bind fun days =>
    (parallel_intSlot h reports contexts _).bind fun hours =>
    (parallel_intSlot h reports contexts _).bind fun minutes => ?_
  rw [window, h.op]
  split
  · exact .fail (reports.evaluation ..)
  · exact (parallel_seriesSlot h reports (moved _) 0).bind fun _ => .done _

/-- `asof` sets a revision of its own, whatever that of the query is. -/
theorem parallel_readAsOf (h : call.Similar link.values call') (reports : link.Reports path path')
    (contexts : link.contexts context context')
    (revised : ∀ r, link.contexts { context with revision := some r } { context' with revision := some r }) :
    (readAsOf call context path).Parallel link (readAsOf call' context' path') :=
  (parallel_instantSlot h reports contexts 0 _).bind fun r =>
    (parallel_seriesSlot h reports (revised r) 1).bind fun _ => .done _

end Operator

end SeriesLang
