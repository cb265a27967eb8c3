import SeriesLang.Proofs.Query.Asked

/-! # Refinement

An expression refines another one if it has every value that the other one has: in the same context, with at
least as many levels left, and wherever it stands. To refine the arguments of an application is to refine the
application, because operators see nothing of their arguments but the values.
-/

namespace SeriesLang

variable {α β : Type} {R : Expr → Expr → Prop}

/-- Computations that make the same requests, for values of related expressions, and come to the same end
    if they are answered in the same way. -/
inductive Body.Matches (R : Expr → Expr → Prop) : Body α → Body α → Prop
  | done (a : α) : Body.Matches R (.done a) (.done a)
  | fail (e e' : Error) : Body.Matches R (.fail e) (.fail e')
  | eval {context e e' slot slot' next next'} (related : R e e')
      (rest : ∀ v, Body.Matches R (next v) (next' v)) :
      Body.Matches R (.eval context e slot next) (.eval context e' slot' next')
  | fetch {context name next next'} (rest : ∀ s, Body.Matches R (next s) (next' s)) :
      Body.Matches R (.fetch context name next) (.fetch context name next')

namespace Body.Matches

theorem bind {b b' : Body α} (h : b.Matches R b') {f f' : α → Body β}
    (rest : ∀ a, (f a).Matches R (f' a)) : (b.bind f).Matches R (b'.bind f') := by
  induction h with
  | done a => exact rest a
  | fail e e' => exact .fail e e'
  | eval related _ ih => exact .eval related ih
  | fetch _ ih => exact .fetch ih

theorem ofExcept {r r' : Except Error α} (h : Alike r r') :
    (Body.ofExcept r).Matches R (.ofExcept r') := by
  cases r with
  | ok a =>
      rw [h.ok rfl]
      exact .done a
  | error e =>
      cases r' with
      | ok a => cases h
      | error e' => exact .fail e e'

end Body.Matches

theorem Body.Parallel.matches {b b' : Body α} (h : b.Parallel ⟨Eq, R, fun _ _ => True⟩ b') :
    b.Matches R b' := by
  induction h with
  | done a => exact .done a
  | fail => exact .fail _ _
  | eval contexts values _ ih =>
      cases contexts
      exact .eval values ih

namespace Operator

theorem matches_readSeries (args : Arguments) (path : Path) :
    (readSeries args).Matches R (readSeries { args with path }) :=
  (Body.Matches.ofExcept (placeless_requireContext args path)).bind fun _ =>
    (Body.Matches.ofExcept (placeless_textAt 0 args path)).bind fun _ => .fetch fun _ => .done _

theorem placeless_reports (path path' : Path) :
    Body.Link.Reports ⟨Eq, R, fun _ _ => True⟩ path path' :=
  ⟨fun _ _ => trivial, fun _ _ _ _ => trivial⟩

/-- The built-in operators do the same at every place. -/
theorem builtin_matches {o : Operator} (known : o = series ∨ o = constant ∨ o = today ∨
    o = timeShifted ∨ o = asOf ∨ ∃ run, o.Plain run) :
    match o.implementation with
    | .values run => ∀ (args : Arguments) (path : Path), (run args).Matches R (run { args with path })
    | .tree run => ∀ (call call' : Call) (context : Context) (path path' : Path), call.Similar R call' →
        (run call context path).Matches R (run call' context path') := by
  rcases known with rfl | rfl | rfl | rfl | rfl | ⟨run, plain⟩
  · exact matches_readSeries
  · exact fun args path => .ofExcept (placeless_makeConstant args path)
  · exact fun args path => .ofExcept (placeless_readToday args path)
  · exact fun _ _ _ path path' h =>
      (parallel_shiftSeries h (placeless_reports path path') rfl rfl fun _ => rfl).matches
  · exact fun _ _ _ path path' h =>
      (parallel_readAsOf h (placeless_reports path path') rfl fun _ => rfl).matches
  · rw [plain.implementation]
    exact fun args path => .ofExcept (plain.placeless args path)

end Operator

namespace Signature

variable (op : String) (path path' : Path)

theorem alike_checkShape (s : Signature) (given : Nat) (names : List String) :
    Alike (s.checkShape op path given names) (s.checkShape op path' given names) := by
  unfold checkShape
  refine .ite rfl (.ite rfl ?_)
  split <;> rfl

theorem alike_checkValue (p : Param) (v : Value) :
    Alike (checkValue op path p v) (checkValue op path' p v) := by
  unfold checkValue
  refine .ite rfl ?_
  split <;> rfl

theorem alike_bindPositional (rest : Option Param) (ps : List Param) (vs : List Value) :
    Alike (bindPositional op path rest ps vs) (bindPositional op path' rest ps vs) := by
  induction ps generalizing vs with
  | nil =>
      cases rest with
      | none => rfl
      | some p => exact Alike.mapM (alike_checkValue op path path' p) vs
  | cons p ps ih =>
      cases vs with
      | nil => exact (ih []).bind fun _ => rfl
      | cons v vs => exact (alike_checkValue op path path' p v).bind fun _ => (ih vs).bind fun _ => rfl

theorem alike_bindKeywords (ps : List Param) (given bound : List (String × Value)) :
    Alike (bindKeywords op path ps given bound) (bindKeywords op path' ps given bound) := by
  induction ps generalizing given bound with
  | nil => rfl
  | cons p ps ih =>
      simp only [bindKeywords]
      split
      · exact (alike_checkValue op path path' p _).bind fun _ => ih _ _
      · exact ih _ _

theorem alike_bind (s : Signature) (positional : List Value) (keywords : List (String × Value)) :
    Alike (s.bind op path positional keywords) (s.bind op path' positional keywords) :=
  (alike_checkShape op path path' s _ _).bind fun _ =>
    (alike_bindPositional op path path' s.rest s.positional positional).bind fun _ =>
      (alike_bindKeywords op path path' s.keywords keywords []).bind fun _ => rfl

end Signature

namespace Env

variable {env : Env} {catalog : Catalog} {n m : Nat} {context : Context} {path : Path}

/-- Every value that an expression has with so many levels left, another one has with at least as many, in
    the same context and at every place. -/
def Refines (env : Env) (catalog : Catalog) (n : Nat) (e e' : Expr) : Prop :=
  ∀ context v, env.Yields catalog n context e v → ∀ levels, n ≤ levels → ∀ path slot,
    (env.evalAt levels context path slot e').run catalog = .ok v

theorem Refines.yields {e e' : Expr} (h : env.Refines catalog n e e') {v : Value}
    (yields : env.Yields catalog n context e v) : env.Yields catalog n context e' v :=
  ⟨.root, "", h context v yields n (Nat.le_refl n) .root ""⟩

theorem Refines.trans {e e' e'' : Expr} (h : env.Refines catalog n e e')
    (h' : env.Refines catalog n e' e'') : env.Refines catalog n e e'' :=
  fun context v yields => h' context v (h.yields yields)

theorem refines_literal (l : Literal) : env.Refines catalog n (.literal l) (.literal l) := by
  intro context v yields levels _ path slot
  rw [yields.literal]
  cases levels <;> rfl

theorem refines_symbol (name : String) : env.Refines catalog n (.symbol name) (.symbol name) := by
  intro context v yields levels _ path slot
  rw [yields.symbol]
  cases levels <;> rfl

theorem alike_checkpoint (env : Env) (path path' : Path) :
    Alike (env.checkpoint path) (env.checkpoint path') := by
  unfold checkpoint
  split <;> rfl

/-- Every value that an expression has in one evaluation its partners have in another one, in the same
    context and wherever they stand. -/
def Tracks (catalog catalog' : Catalog) (eval eval' : Evaluator) (R : Expr → Expr → Prop) : Prop :=
  ∀ ⦃context path slot e e' v⦄, R e e' → (eval context path slot e).run catalog = .ok v →
    ∀ path' slot', (eval' context path' slot' e').run catalog' = .ok v

section Tracks

variable {env' : Env} {catalog' : Catalog} {eval eval' : Evaluator} {R : Expr → Expr → Prop}

/-- A name in one evaluation and its partner in the other one: both stand for the same series in place of
    stored ones, or for partners among the formulas, or for a stored series that is the same. -/
structure Partners (env env' : Env) (catalog catalog' : Catalog) (R : Expr → Expr → Prop)
    (name name' : String) : Prop where
  leaf : Sorted.get? name' env'.leaves = Sorted.get? name env.leaves
  formula : ∀ tree, catalog name = .ok (some tree) →
    ∃ tree', catalog' name' = .ok (some tree') ∧ R tree tree'
  stored : catalog name = .ok none → catalog' name' = .ok none ∧
    ∀ w revision s, env.store.get? name w revision = some s → env'.store.get? name' w revision = some s

theorem Tracks.fetch (tracks : Tracks catalog catalog' eval eval' R)
    (clears : ∀ path path', Alike (env.checkpoint path) (env'.checkpoint path')) {name name' : String}
    (partners : Partners env env' catalog catalog' R name name') {s : Series}
    (h : (env.fetch eval context path name).run catalog = .ok s) (path' : Path) :
    (env'.fetch eval' context path' name').run catalog' = .ok s := by
  unfold Env.fetch at h ⊢
  obtain ⟨_, clear, h⟩ := Query.ok_of_run_bind h
  rw [Query.run_ofExcept] at clear
  refine (Query.run_ofExcept_bind ((clears path path').ok clear) _).trans ?_
  rw [partners.leaf]
  cases given : Sorted.get? name env.leaves with
  | some leaf =>
      simp only [given] at h ⊢
      exact h
  | none =>
      simp only [given] at h ⊢
      obtain ⟨tree, named, h⟩ := Query.ok_of_run_bind h
      rw [Query.run_formula] at named
      cases tree with
      | none =>
          obtain ⟨unnamed, kept⟩ := partners.stored named
          refine (Query.run_bind_ok ((Query.run_formula ..).trans unnamed)).trans ?_
          simp only [Query.run_ofExcept, primary] at h ⊢
          split at h
          · rename_i found
            cases h
            rw [kept _ _ _ found]
          · cases h
      | some tree =>
          obtain ⟨tree', named', related⟩ := partners.formula tree named
          refine (Query.run_bind_ok ((Query.run_formula ..).trans named')).trans ?_
          obtain ⟨v, yields, h⟩ := Query.ok_of_run_bind h
          refine (Query.run_bind_ok (tracks related yields path' name')).trans ?_
          cases v with
          | series s => exact h
          | _ => cases h

/-- Requests that match are answered alike, if the series that are asked for are found alike. -/
theorem Tracks.answer (tracks : Tracks catalog catalog' eval eval' R) {E : Expr → Prop}
    {N : String → Prop} (fetches : ∀ {context path name s}, N name →
      (env.fetch eval context path name).run catalog = .ok s →
      ∀ path', (env'.fetch eval' context path' name).run catalog' = .ok s)
    {b b' : Body α} (h : b.Matches R b') (asks : b.Asks E N) {a : α}
    (answers : (env.answer eval path b).run catalog = .ok a) (path' : Path) :
    (env'.answer eval' path' b').run catalog' = .ok a := by
  induction h with
  | done b => exact answers
  | fail e e' => cases answers
  | @eval context e e' slot slot' next next' related _ ih =>
      obtain ⟨v, first, answers⟩ := Query.ok_of_run_bind answers
      exact (Query.run_bind_ok (tracks related first path' slot')).trans (ih v (asks.2 v) answers)
  | @fetch context name next next' _ ih =>
      obtain ⟨s, first, answers⟩ := Query.ok_of_run_bind answers
      exact (Query.run_bind_ok (fetches asks.1 first path')).trans (ih s (asks.2 s) answers)

theorem Tracks.args (tracks : Tracks catalog catalog' eval eval' R) {es es' : List Expr}
    (h : List.Forall₂ R es es') {index : Nat} {vs : List Value}
    (yields : (evalArgs eval context path index es).run catalog = .ok vs) (path' : Path) :
    (evalArgs eval' context path' index es').run catalog' = .ok vs := by
  induction h generalizing index vs with
  | nil => exact yields
  | cons first _ ih =>
      obtain ⟨v, value, yields⟩ := Query.ok_of_run_bind yields
      obtain ⟨rest, values, yields⟩ := Query.ok_of_run_bind yields
      have again := tracks first value path' (toString index)
      exact (Query.run_bind_ok again).trans ((Query.run_bind_ok (ih values)).trans yields)

theorem Tracks.kwargs (tracks : Tracks catalog catalog' eval eval' R)
    {es es' : List (String × Expr)} (h : List.Forall₂ (fun p q => p.1 = q.1 ∧ R p.2 q.2) es es')
    {vs : List (String × Value)}
    (yields : (evalKwargs eval context path es).run catalog = .ok vs) (path' : Path) :
    (evalKwargs eval' context path' es').run catalog' = .ok vs := by
  induction h generalizing vs with
  | nil => exact yields
  | @cons p q es es' first _ ih =>
      obtain ⟨name, e⟩ := p
      obtain ⟨_, e'⟩ := q
      obtain ⟨rfl, first⟩ := first
      obtain ⟨v, value, yields⟩ := Query.ok_of_run_bind yields
      obtain ⟨rest, values, yields⟩ := Query.ok_of_run_bind yields
      have again := tracks first value path' name
      exact (Query.run_bind_ok again).trans ((Query.run_bind_ok (ih values)).trans yields)

theorem alike_checkCall {call call' : Call} (h : call.Similar R call')
    (s : Signature) (path path' : Path) : Alike (s.checkCall call path) (s.checkCall call' path') := by
  unfold Signature.checkCall
  rw [← h.op, ← h.args.length_eq, ← Application.names_eq h.kwargs]
  exact Signature.alike_checkShape ..

/-- An application has its value in the other evaluation if its arguments have theirs and, where it is to
    read a series by name, the series is found. -/
theorem Tracks.call (tracks : Tracks catalog catalog' eval eval' R) (builtin : env.registry = .builtin)
    (builtin' : env'.registry = .builtin)
    (clears : ∀ path path', Alike (env.checkpoint path) (env'.checkpoint path')) {call call' : Call}
    (fetches : ∀ {context path name s}, call.op = "series" →
      (env.fetch eval context path name).run catalog = .ok s →
      ∀ path', (env'.fetch eval' context path' name).run catalog' = .ok s)
    (h : call.Similar R call') {v : Value}
    (yields : (env.evalCall eval context path call).run catalog = .ok v) (path' : Path) :
    (env'.evalCall eval' context path' call').run catalog' = .ok v := by
  obtain ⟨clear, o, found, shape, applied⟩ := evalCall_ok_iff.1 yields
  have known := Registry.get?_of_find found
  have found' : env'.registry.find call'.op path' = .ok o := by
    rw [Registry.find, ← h.op, builtin', ← builtin, known]
  refine evalCall_ok_iff.2 ⟨(clears _ _).ok clear, o, found', (alike_checkCall h _ _ _).ok shape, ?_⟩
  obtain ⟨named, known⟩ := operator_cases builtin known
  have same := Operator.builtin_matches (R := R) known
  have requests := Operator.builtin_asks known
  cases applied with
  | tree implementation answered =>
      simp only [implementation] at same requests
      exact .tree implementation (tracks.answer (fun never => never.elim) (same call call' context _ _ h)
        (requests call context _) answered path')
  | values implementation hpositional hkeywords hbound answered =>
      simp only [implementation] at same requests
      have hbound' := (Signature.alike_bind call.op path path' o.signature _ _).ok hbound
      rw [h.op] at hbound'
      refine .values implementation (tracks.args h.args hpositional _) (tracks.kwargs h.kwargs hkeywords _)
        hbound' ?_
      rw [← h.op]
      refine tracks.answer (fun reads => fetches ?_) (same _ _) (requests _) answered path'
      obtain ⟨rfl, -⟩ := reads
      exact named.symm

end Tracks

theorem tracks_refines (deeper : n ≤ m) :
    Tracks catalog catalog (env.evalAt n) (env.evalAt m) (env.Refines catalog n) :=
  fun _ _ _ _ _ _ related yields => related _ _ ⟨_, _, yields⟩ _ deeper

/-- The series of a name is found at every place. -/
theorem fetch_refined (self : ∀ e, env.Refines catalog n e e) (deeper : n ≤ m) {name : String}
    {s : Series} (h : (env.fetch (env.evalAt n) context path name).run catalog = .ok s) (path' : Path) :
    (env.fetch (env.evalAt m) context path' name).run catalog = .ok s :=
  (tracks_refines deeper).fetch (alike_checkpoint env)
    ⟨rfl, fun tree named => ⟨tree, named, self tree⟩, fun unnamed => ⟨unnamed, fun _ _ _ h => h⟩⟩ h path'

/-- An application is refined by refining its arguments. -/
theorem Refines.call (builtin : env.registry = .builtin) (self : ∀ e, env.Refines catalog n e e)
    {call call' : Call} (h : call.Similar (env.Refines catalog n) call') :
    env.Refines catalog (n + 1) (.call call) (.call call') := by
  rintro context v ⟨parent, slot, yields⟩ (_ | m) deeper parent' slot'
  · exact absurd deeper (Nat.not_succ_le_zero n)
  have deeper : n ≤ m := Nat.le_of_succ_le_succ deeper
  exact (tracks_refines deeper).call builtin builtin (alike_checkpoint env)
    (fun _ fetched path' => fetch_refined self deeper fetched path') h yields _

/-- A value that an expression has it has everywhere, and with more levels, too. -/
theorem refines_self (builtin : env.registry = .builtin) (n : Nat) (e : Expr) :
    env.Refines catalog n e e := by
  induction n generalizing e with
  | zero =>
      cases e with
      | literal l => exact refines_literal l
      | symbol name => exact refines_symbol name
      | call call => exact fun context v yields => absurd yields not_yields_zero
  | succ n ih =>
      cases e with
      | literal l => exact refines_literal l
      | symbol name => exact refines_symbol name
      | call call => exact .call builtin ih (.refl ih call)

/-- Applications to arguments that refine one another, with however many levels, do so as well. -/
theorem Refines.of_similar (builtin : env.registry = .builtin) {call call' : Call}
    (h : call.Similar (fun e e' => ∀ n, env.Refines catalog n e e') call') (n : Nat) :
    env.Refines catalog n (.call call) (.call call') := by
  cases n with
  | zero => exact fun context v yields => absurd yields not_yields_zero
  | succ n => exact .call builtin (refines_self builtin n) (h.imp fun _ _ _ refines => refines n)

end Env

end SeriesLang
