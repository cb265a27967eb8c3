import SeriesLang.Proofs.Query.Closure
import SeriesLang.Proofs.Query.Revisions
import SeriesLang.Query.Staircase

/-! # Revision dates

The revision dates of an expression are all at which its value may change: they have the insertion dates of
every stored series and the revision dates of every constant that is reached through formulas.
-/

namespace SeriesLang

variable {env : Env} {catalog : Catalog} {context : Context} {e : Expr}

/-- The expressions that are read for an expression: itself, and the formulas of the names that one of
    them reads. -/
inductive Expr.Reaches (r : Registry) (catalog : Catalog) (e : Expr) : Expr → Prop
  | self : Reaches r catalog e e
  | formula {e' name tree} (h : Reaches r catalog e e') (reads : name ∈ r.references e')
      (named : catalog name = .ok (some tree)) : Reaches r catalog e tree

namespace Registry

mutual

/-- Names are only read by applications of `series`. -/
theorem mem_references {r : Registry} (registry : r = .builtin) {name : String} : (e : Expr) →
    name ∈ r.references e → ∃ call ∈ e.calls, call.seriesName? = some name
  | .literal _, h => by simp [references] at h
  | .symbol _, h => by simp [references] at h
  | .call ⟨op, args, kwargs⟩, h => by
    simp only [references] at h
    split at h
    · rename_i find finder
      obtain ⟨o, found, finds⟩ := Option.bind_eq_some_iff.1 finder
      rw [registry] at found
      obtain ⟨known, rfl⟩ := builtin_get? found
      rcases Operator.builtin_cases known with rfl | rfl | rfl | rfl | rfl | ⟨run, plain⟩
      · cases finds
        refine ⟨_, Expr.mem_calls_self _, ?_⟩
        rw [Application.seriesName?_of_op (by rfl)]
        exact Option.mem_toList.1 h
      · cases finds
        cases h
      · cases finds
      · cases finds
      · cases finds
      · rw [plain.finder] at finds
        cases finds
    · rcases List.mem_append.1 h with h | h
      · obtain ⟨call, hcall, named⟩ := mem_references_args registry args h
        exact ⟨call, List.mem_cons_of_mem _ (List.mem_append.2 (.inl hcall)), named⟩
      · obtain ⟨call, hcall, named⟩ := mem_references_kwargs registry kwargs h
        exact ⟨call, List.mem_cons_of_mem _ (List.mem_append.2 (.inr hcall)), named⟩

theorem mem_references_args {r : Registry} (registry : r = .builtin) {name : String} :
    (es : List Expr) → name ∈ r.referencesOfArgs es →
    ∃ call ∈ Expr.callsOfArgs es, call.seriesName? = some name
  | [], h => by simp [referencesOfArgs] at h
  | e :: rest, h => by
    rcases List.mem_append.1 h with h | h
    · obtain ⟨call, hcall, named⟩ := mem_references registry e h
      exact ⟨call, List.mem_append.2 (.inl hcall), named⟩
    · obtain ⟨call, hcall, named⟩ := mem_references_args registry rest h
      exact ⟨call, List.mem_append.2 (.inr hcall), named⟩

theorem mem_references_kwargs {r : Registry} (registry : r = .builtin) {name : String} :
    (es : List (String × Expr)) → name ∈ r.referencesOfKwargs es →
    ∃ call ∈ Expr.callsOfKwargs es, call.seriesName? = some name
  | [], h => by simp [referencesOfKwargs] at h
  | (key, e) :: rest, h => by
    rcases List.mem_append.1 h with h | h
    · obtain ⟨call, hcall, named⟩ := mem_references registry e h
      exact ⟨call, List.mem_append.2 (.inl hcall), named⟩
    · obtain ⟨call, hcall, named⟩ := mem_references_kwargs registry rest h
      exact ⟨call, List.mem_append.2 (.inr hcall), named⟩

end

end Registry

namespace Staircase

/-- A formula at the end of a chain was followed with some room for a longer one. -/
theorem followFormula_ok {α : Type} {stack : List String} {leaf a : α}
    {deeper : Option (List String → Expr → Query α)} {name : String}
    (h : (Query.followFormula stack leaf deeper name).run catalog = .ok a) :
    ∃ go tree, deeper = some go ∧ catalog name = .ok tree ∧
      match tree with
      | some tree => (go (stack ++ [name]) tree).run catalog = .ok a
      | none => leaf = a := by
  unfold Query.followFormula at h
  split at h
  · cases h
  · split at h
    · cases h
    · rename_i go
      obtain ⟨tree, named, h⟩ := Query.ok_of_run_bind h
      rw [Query.run_formula] at named
      refine ⟨go, tree, rfl, named, ?_⟩
      cases tree with
      | some tree => exact h
      | none =>
          cases h
          rfl

/-- No name is taken at the end of a chain of formulas that may not get longer. -/
theorem followFormula_none {α : Type} {stack : List String} {name : String} (apart : name ∉ stack) (leaf : α) :
    (Query.followFormula stack leaf none name).run catalog =
      .error (.recursionLimit Limits.resolveDepth (Dependencies.chain stack)) := by
  rw [Query.followFormula, if_neg (by simpa using apart)]
  rfl

/-- The dates that an application has of its own. -/
def datesOfCall (env : Env) (context : Context) (call : Call) : Query (List Instant) :=
  match (env.registry.get? call.op).bind Operator.insertionDates with
  | some dates => env.answerTop ⟨call.op⟩ (dates call context ⟨call.op⟩)
  | none => .done []

theorem datesOfCalls_cons (follow : String → Query (List Instant)) (call : Call) (rest : List Call) :
    datesOfCalls env context follow (call :: rest) =
      (datesOfCall env context call).bind (fun own =>
        (call.seriesName?.elim (.done []) follow).bind (fun below =>
          (datesOfCalls env context follow rest).bind (fun others => .done (own ++ below ++ others)))) := by
  simp only [datesOfCalls, datesOfCall]
  cases (env.registry.get? call.op).bind Operator.insertionDates <;>
    cases call.seriesName? <;> rfl

/-- The dates of applications have those of each one, and those of the formula that it names. -/
theorem datesOfCalls_ok {follow : String → Query (List Instant)} {calls : List Call}
    {dates : List Instant} (h : (datesOfCalls env context follow calls).run catalog = .ok dates)
    {call : Call} (hcall : call ∈ calls) :
    (∃ own, (datesOfCall env context call).run catalog = .ok own ∧ ∀ d ∈ own, d ∈ dates) ∧
    ∀ name, call.seriesName? = some name →
      ∃ below, (follow name).run catalog = .ok below ∧ ∀ d ∈ below, d ∈ dates := by
  induction calls generalizing dates with
  | nil => cases hcall
  | cons first rest ih =>
      rw [datesOfCalls_cons] at h
      obtain ⟨own, hown, h⟩ := Query.ok_of_run_bind h
      obtain ⟨below, hbelow, h⟩ := Query.ok_of_run_bind h
      obtain ⟨others, hothers, h⟩ := Query.ok_of_run_bind h
      cases h
      rcases List.mem_cons.1 hcall with rfl | hcall
      · refine ⟨⟨own, hown, by simp +contextual⟩, fun name named => ?_⟩
        rw [named] at hbelow
        exact ⟨below, hbelow, by simp +contextual⟩
      · obtain ⟨⟨own', hown', inside⟩, follows⟩ := ih hothers hcall
        refine ⟨⟨own', hown', fun d hd => List.mem_append.2 (.inr (inside d hd))⟩, ?_⟩
        intro name named
        obtain ⟨below', hbelow', inside⟩ := follows name named
        exact ⟨below', hbelow', fun d hd => List.mem_append.2 (.inr (inside d hd))⟩

/-- The dates of the operators in an expression, with room for some chain of formulas, are among these. -/
def OwnWithin (env : Env) (catalog : Catalog) (context : Context) (dates : List Instant) (e : Expr) :
    Prop :=
  ∃ room stack own, (ownDatesAt env context room stack e).run catalog = .ok own ∧ ∀ d ∈ own, d ∈ dates

theorem OwnWithin.calls {dates : List Instant} (h : OwnWithin env catalog context dates e) :
    ∃ stack deeper own, (datesOfCalls env context
        (Query.followFormula stack [] deeper) e.calls).run catalog = .ok own ∧ (∀ d ∈ own, d ∈ dates) ∧
      ∀ go, deeper = some go → ∃ room, go = ownDatesAt env context room := by
  obtain ⟨room, stack, own, h, inside⟩ := h
  cases room with
  | zero => exact ⟨stack, none, own, h, inside, fun go hgo => by cases hgo⟩
  | succ room =>
      refine ⟨stack, some (ownDatesAt env context room), own, h, inside, fun go hgo => ?_⟩
      cases hgo
      exact ⟨room, rfl⟩

theorem OwnWithin.formula {dates : List Instant} (h : OwnWithin env catalog context dates e)
    {call : Call} (hcall : call ∈ e.calls) {name : String} (reads : call.seriesName? = some name)
    {tree : Expr} (named : catalog name = .ok (some tree)) :
    OwnWithin env catalog context dates tree := by
  obtain ⟨stack, deeper, own, h, inside, rooms⟩ := h.calls
  obtain ⟨below, followed, within⟩ := (datesOfCalls_ok h hcall).2 name reads
  obtain ⟨go, found, hgo, named', followed⟩ := followFormula_ok followed
  cases named.symm.trans named'
  obtain ⟨room, rfl⟩ := rooms go hgo
  exact ⟨room, stack ++ [name], below, followed, fun d hd => inside d (within d hd)⟩

theorem OwnWithin.reaches (builtin : env.registry = .builtin) {dates : List Instant}
    (h : OwnWithin env catalog context dates e) {e' : Expr}
    (reached : e.Reaches env.registry catalog e') : OwnWithin env catalog context dates e' := by
  induction reached with
  | self => exact h
  | formula _ reads named ih =>
      obtain ⟨call, hcall, name⟩ := Registry.mem_references builtin _ reads
      exact ih.formula hcall name named

/-- The revision date of a constant, in whatever context it is evaluated, is one of the dates. -/
theorem OwnWithin.revision (builtin : env.registry = .builtin) (steady : e.Steady)
    {dates : List Instant} (h : OwnWithin env catalog context dates e) {call : Call}
    (hcall : call ∈ e.calls) (op : call.op = "constant") {fifth : Expr}
    (present : call.args[4]? = some fifth) {levels : Nat} {context' : Context} {v : Value} {t : Instant}
    (yields : env.Yields catalog levels context' fifth v)
    (coerced : ParamType.timestamp.coerce? v = some (.timestamp t)) : t ∈ dates := by
  obtain ⟨stack, deeper, own, h, inside, -⟩ := h.calls
  have make : (env.registry.get? call.op).bind Operator.insertionDates =
      Operator.constant.insertionDates := by
    have known : Operator.constant ∈ Operator.builtins := by simp [Operator.builtins]
    rw [builtin, op]
    exact congrArg (Option.bind · _) (Registry.builtin_get?_of_mem known)
  obtain ⟨made, answered, within⟩ := (datesOfCalls_ok h hcall).1
  rw [datesOfCall, make] at answered
  obtain ⟨found, slot, answered⟩ := Env.ok_of_answer_bind answered
  cases answered
  simp only [Operator.instantSlot, present] at slot
  obtain ⟨v', yields', slot⟩ := Env.ok_of_answer_bind slot
  have argument := Application.mem_arguments_of_getElem? present
  have steadyFifth : fifth.Steady := fun inner hinner =>
    steady inner (Expr.mem_calls_trans e hcall (Expr.mem_calls_of_argument argument hinner))
  have alike := yields.alike builtin builtin steadyFifth (Env.yields_of_answer yields')
  have same : v' = v := by
    cases alike with
    | scalar _ => rfl
    | series _ => cases coerced
  subst same
  have value : found = t := by
    cases v' with
    | timestamp u =>
        cases slot
        cases coerced
        rfl
    | str text =>
        simp only [ParamType.coerce?] at coerced
        obtain ⟨u, read, heq⟩ := Option.map_eq_some_iff.1 coerced
        cases heq
        simp only [read] at slot
        cases slot
        rfl
    | _ => cases coerced
  subst value
  exact inside _ (within _ (List.mem_singleton.2 rfl))

theorem run_leafDates (bound : Window) (leaf : String) : (leafDates env bound leaf).run catalog =
    (env.checkpoint ⟨leaf⟩).map (fun _ => env.store.insertionDates leaf bound) := by
  show ((Query.ofExcept _).bind _).run catalog = _
  rw [Query.run_bind, Query.run_ofExcept]
  cases env.checkpoint ⟨leaf⟩ <;> rfl

/-- The dates within a bound, from the names and the dates that were found. -/
def datesWithin (env : Env) (found : Dependencies) (own : List Instant) (bound : Window) :
    List Instant :=
  (Index.union (found.primaries.map (env.store.insertionDates · bound) ++ own.map ([·]))).filter
    bound.contains

/-- Where the stored series are found, the revision dates are there as soon as the operators tell theirs. -/
theorem run_revisionDates {found : Dependencies}
    (hfound : (Dependencies.transitive env.registry env.store e).run catalog = .ok found)
    (checks : ∀ leaf ∈ found.primaries, env.checkpoint ⟨leaf⟩ = .ok ()) (bound : Window) :
    (revisionDates env context e bound).run catalog =
      ((ownDatesAt env context Limits.resolveDepth [] e).run catalog).map
        (datesWithin env found · bound) := by
  have hnames : (leaves env e).run catalog = .ok found.primaries := by
    show ((Dependencies.transitive env.registry env.store e).bind _).run catalog = _
    rw [Query.run_bind_ok hfound]
    rfl
  have hstored : (Query.forEach (leafDates env bound) found.primaries).run catalog =
      .ok (found.primaries.map (env.store.insertionDates · bound)) := by
    simp only [Query.run_forEach, run_leafDates]
    exact mapM_check_ok_iff.2 ⟨checks, rfl⟩
  show ((leaves env e).bind _).run catalog = _
  rw [Query.run_bind_ok hnames]
  show ((Query.forEach _ _).bind _).run catalog = _
  rw [Query.run_bind_ok hstored]
  show ((ownDatesAt env context Limits.resolveDepth [] e).bind _).run catalog = _
  rw [Query.run_bind]
  cases (ownDatesAt env context Limits.resolveDepth [] e).run catalog <;> rfl

/-- A bound does not decide whether there are revision dates, and only cuts them. -/
theorem revisionDates_ok_iff {bound : Window} {dates : List Instant} :
    (revisionDates env context e bound).run catalog = .ok dates ↔ ∃ found own,
      (Dependencies.transitive env.registry env.store e).run catalog = .ok found ∧
      (∀ leaf ∈ found.primaries, env.checkpoint ⟨leaf⟩ = .ok ()) ∧
      (ownDatesAt env context Limits.resolveDepth [] e).run catalog = .ok own ∧
      dates = datesWithin env found own bound := by
  constructor
  · intro h
    obtain ⟨names, hnames, h⟩ := Query.ok_of_run_bind h
    obtain ⟨found, hfound, same⟩ := Query.ok_of_run_bind hnames
    cases same
    obtain ⟨stored, hstored, h⟩ := Query.ok_of_run_bind h
    obtain ⟨own, hown, h⟩ := Query.ok_of_run_bind h
    cases h
    simp only [Query.run_forEach, run_leafDates] at hstored
    obtain ⟨checks, rfl⟩ := mapM_check_ok_iff.1 hstored
    exact ⟨found, own, hfound, checks, hown, rfl⟩
  · rintro ⟨found, own, hfound, checks, hown, rfl⟩
    rw [run_revisionDates hfound checks, hown]
    rfl

theorem mem_datesWithin {found : Dependencies} {own : List Instant} {bound : Window} {d : Instant} :
    d ∈ datesWithin env found own bound ↔ ((∃ leaf ∈ found.primaries, ∃ s,
      env.store.find? leaf = some s ∧ d ∈ s.insertionDates) ∨ d ∈ own) ∧ bound.contains d = true := by
  simp only [datesWithin, List.mem_filter, Index.mem_union, List.mem_append, List.mem_map]
  constructor
  · rintro ⟨⟨_, ⟨leaf, hleaf, rfl⟩ | ⟨_, hown, rfl⟩, hd⟩, inside⟩
    · exact ⟨.inl ⟨leaf, hleaf, (Store.mem_insertionDates.1 hd).1⟩, inside⟩
    · rw [List.mem_singleton.1 hd] at inside ⊢
      exact ⟨.inr hown, inside⟩
  · rintro ⟨⟨leaf, hleaf, found⟩ | hown, inside⟩
    · exact ⟨⟨_, .inl ⟨leaf, hleaf, rfl⟩, Store.mem_insertionDates.2 ⟨found, inside⟩⟩, inside⟩
    · exact ⟨⟨_, .inr ⟨d, hown, rfl⟩, List.mem_singleton.2 rfl⟩, inside⟩

theorem ascending_datesWithin (built : env.store.Built) (found : Dependencies) (own : List Instant)
    (bound : Window) : Index.Ascending (datesWithin env found own bound) := by
  apply List.Pairwise.sublist List.filter_sublist
  apply Index.ascending_union
  intro dates hdates
  rcases List.mem_append.1 hdates with hdates | hdates
  · obtain ⟨leaf, -, rfl⟩ := List.mem_map.1 hdates
    exact Store.ascending_insertionDates built leaf bound
  · obtain ⟨d, -, rfl⟩ := List.mem_map.1 hdates
    exact List.pairwise_singleton _ _

/-- All names that are read by expressions that are reached are found. -/
theorem reads_of_reaches {found : Dependencies}
    (h : (Dependencies.transitive env.registry env.store e).run catalog = .ok found) {e' : Expr}
    (reached : e.Reaches env.registry catalog e') :
    ∀ name ∈ env.registry.references e', name ∈ Dependencies.names found := by
  have expanded := Dependencies.expanded_of_ok h
  induction reached with
  | self => exact fun name hname => (expanded.reads name hname).1
  | formula _ reads named ih =>
      rcases expanded.closed _ (ih _ reads) with new | ⟨-, closed⟩
      · cases new
      · exact closed _ named

/-- A name that is no formula stands for its stored series, if it has one. -/
theorem mem_primaries {found : Dependencies}
    (h : (Dependencies.transitive env.registry env.store e).run catalog = .ok found) {name : String}
    (hname : name ∈ Dependencies.names found) (unnamed : catalog name = .ok none) {s : StoredSeries}
    (stored : env.store.find? name = some s) : name ∈ found.primaries := by
  obtain ⟨p, hp, rfl⟩ := List.mem_map.1 hname
  rcases (Dependencies.expanded_of_ok h).stands p hp with old | ⟨tree, answer, kind⟩
  · cases old
  · cases unnamed.symm.trans answer
    have primary : p.2 = .primary s.info := by
      rw [kind, Dependencies.standsFor, Dependency.stored, Store.info?, stored]
      rfl
    refine List.mem_map.2 ⟨p, List.mem_filter.2 ⟨hp, ?_⟩, rfl⟩
    rw [primary]
    rfl

/-- The names that an expression reads, directly or through formulas. -/
def ReadsName (env : Env) (catalog : Catalog) (e : Expr) (name : String) : Prop :=
  ∃ e', e.Reaches env.registry catalog e' ∧ name ∈ env.registry.references e'

/-- The unbounded revision dates are all dates at which an expression or what it reads may change. -/
theorem covers_revisionDates (builtin : env.registry = .builtin)
    (steady : ∀ e', e.Reaches env.registry catalog e' → e'.Steady) {dates : List Instant}
    (h : (revisionDates env context e .all).run catalog = .ok dates) :
    env.Covers catalog (· ∈ dates) (ReadsName env catalog e) e ∧
      env.Settled catalog (· ∈ dates) (ReadsName env catalog e) := by
  obtain ⟨found, own, hfound, -, hown, rfl⟩ := revisionDates_ok_iff.1 h
  have owns : OwnWithin env catalog context (datesWithin env found own .all) e :=
    ⟨_, _, own, hown, fun d hd => mem_datesWithin.2 ⟨.inr hd, rfl⟩⟩
  have covers : ∀ e', e.Reaches env.registry catalog e' →
      env.Covers catalog (· ∈ datesWithin env found own .all) (ReadsName env catalog e) e' := by
    intro e' reached
    refine ⟨steady e' reached, fun name hname => ⟨e', reached, hname⟩, ?_⟩
    intro call hcall op fifth present _ _ v t yields coerced
    exact (owns.reaches builtin reached).revision builtin (steady e' reached) hcall op present yields
      coerced
  refine ⟨covers e .self, ⟨?_, ?_⟩⟩
  · rintro name ⟨e', reached, hname⟩ unnamed s stored d hd
    have primary := mem_primaries hfound (reads_of_reaches hfound reached name hname) unnamed stored
    exact mem_datesWithin.2 ⟨.inl ⟨name, primary, s, stored, hd⟩, rfl⟩
  · rintro name ⟨e', reached, hname⟩ tree named
    exact covers tree (reached.formula hname named)

end Staircase

end SeriesLang
