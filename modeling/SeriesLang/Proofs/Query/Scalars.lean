import SeriesLang.Proofs.Query.Applications

/-! # Scalars

No scalar is made of the points of a series. As long as an expression does not ask for the date of the query,
every number, text and timestamp in it is the same in all contexts.
-/

namespace SeriesLang

/-- An application that does not look at the revision of the query. -/
def Application.Steady (call : Call) : Prop :=
  call.op ≠ "today" ∧ call.op ≠ "asof"

namespace Expr

/-- No application in the expression looks at the revision of the query. -/
def Steady (e : Expr) : Prop :=
  ∀ call ∈ e.calls, call.Steady

theorem mem_callsOfArgs {call : Call} {es : List Expr} :
    call ∈ callsOfArgs es ↔ ∃ e ∈ es, call ∈ e.calls := by
  induction es with
  | nil => simp [callsOfArgs]
  | cons e es ih => simp [callsOfArgs, ih]

theorem mem_callsOfKwargs {call : Call} {es : List (String × Expr)} :
    call ∈ callsOfKwargs es ↔ ∃ p ∈ es, call ∈ p.2.calls := by
  induction es with
  | nil => simp [callsOfKwargs]
  | cons p es ih =>
      obtain ⟨name, e⟩ := p
      simp [callsOfKwargs, ih]

theorem mem_calls_self (call : Call) : call ∈ (Expr.call call).calls := by
  obtain ⟨op, args, kwargs⟩ := call
  simp [calls]

theorem mem_calls_of_argument {call inner : Call} {e : Expr} (he : e ∈ call.arguments)
    (h : inner ∈ e.calls) : inner ∈ (Expr.call call).calls := by
  obtain ⟨op, args, kwargs⟩ := call
  simp only [calls, List.mem_cons, List.mem_append, mem_callsOfArgs, mem_callsOfKwargs]
  right
  rcases List.mem_append.1 he with he | he
  · exact .inl ⟨e, he, h⟩
  · obtain ⟨p, hp, rfl⟩ := List.mem_map.1 he
    exact .inr ⟨p, hp, h⟩

mutual

/-- The applications in an application of an expression are applications of the expression. -/
theorem mem_calls_trans {call inner : Call} : (e : Expr) → call ∈ e.calls →
    inner ∈ (Expr.call call).calls → inner ∈ e.calls
  | .literal _, hcall, _ => by simp [calls] at hcall
  | .symbol _, hcall, _ => by simp [calls] at hcall
  | .call ⟨op, args, kwargs⟩, hcall, h => by
    simp only [calls, List.mem_cons, List.mem_append] at hcall ⊢
    rcases hcall with rfl | hcall | hcall
    · simpa [calls] using h
    · exact .inr (.inl (mem_calls_trans_args args hcall h))
    · exact .inr (.inr (mem_calls_trans_kwargs kwargs hcall h))

theorem mem_calls_trans_args {call inner : Call} : (es : List Expr) → call ∈ callsOfArgs es →
    inner ∈ (Expr.call call).calls → inner ∈ callsOfArgs es
  | [], hcall, _ => by simp [callsOfArgs] at hcall
  | e :: rest, hcall, h => by
    simp only [callsOfArgs, List.mem_append] at hcall ⊢
    rcases hcall with hcall | hcall
    · exact .inl (mem_calls_trans e hcall h)
    · exact .inr (mem_calls_trans_args rest hcall h)

theorem mem_calls_trans_kwargs {call inner : Call} : (es : List (String × Expr)) →
    call ∈ callsOfKwargs es → inner ∈ (Expr.call call).calls → inner ∈ callsOfKwargs es
  | [], hcall, _ => by simp [callsOfKwargs] at hcall
  | (name, e) :: rest, hcall, h => by
    simp only [callsOfKwargs, List.mem_append] at hcall ⊢
    rcases hcall with hcall | hcall
    · exact .inl (mem_calls_trans e hcall h)
    · exact .inr (mem_calls_trans_kwargs rest hcall h)

end

theorem Steady.self {call : Call} (h : (Expr.call call).Steady) : call.Steady :=
  h call (mem_calls_self call)

theorem Steady.argument {call : Call} (h : (Expr.call call).Steady) {e : Expr}
    (he : e ∈ call.arguments) : e.Steady :=
  fun inner hinner => h inner (mem_calls_of_argument he hinner)

end Expr

theorem Application.seriesName?_of_op {call : Call} (op : call.op = "series") :
    call.seriesName? = call.args.head?.bind Expr.text? :=
  if_pos op

/-- The relation of any two series. -/
theorem Series.closedWhole_any : Series.ClosedWhole (fun _ _ => True) where
  mapValues _ _ := trivial
  retain _ _ := trivial
  strict _ _ := trivial
  lenient _ _ _ := trivial
  patch _ := trivial
  resample _ _ _ _ _ _ _ := trivial
  rolling _ _ _ := trivial
  cumulative _ := trivial

namespace Signature

/-- What is bound to a positional parameter: its default, or the checked argument in its place. -/
theorem bindPositional_at {op : String} {path : Path} {rest : Option Param} {ps : List Param}
    {vs ws : List Value} (h : bindPositional op path rest ps vs = .ok ws) {i : Nat} {p : Param}
    (hp : ps[i]? = some p) : ws[i]? = some p.missing ∨
      ∃ v w, vs[i]? = some v ∧ checkValue op path p v = .ok w ∧ ws[i]? = some w := by
  induction ps generalizing vs ws i with
  | nil => cases hp
  | cons q ps ih =>
      cases vs with
      | nil =>
          obtain ⟨later, others, h⟩ := ok_of_bind h
          cases h
          cases i with
          | zero =>
              cases hp
              exact .inl rfl
          | succ i =>
              rcases ih others hp with missing | ⟨v, w, given, -⟩
              · exact .inl missing
              · cases given
      | cons v vs =>
          obtain ⟨w, first, h⟩ := ok_of_bind h
          obtain ⟨later, others, h⟩ := ok_of_bind h
          cases h
          cases i with
          | zero =>
              cases hp
              exact .inr ⟨v, w, rfl, first, rfl⟩
          | succ i => exact ih others hp

theorem get?_bindKeywords_of_not_mem {op : String} {path : Path} {ps : List Param} {name : String}
    (other : name ∉ ps.map Param.name) {given bound out : List (String × Value)}
    (h : bindKeywords op path ps given bound = .ok out) :
    Sorted.get? name out = Sorted.get? name bound := by
  induction ps generalizing given bound with
  | nil =>
      cases h
      rfl
  | cons p ps ih =>
      simp only [List.map_cons, List.mem_cons, not_or] at other
      have later : ∀ {v given}, bindKeywords op path ps given (Sorted.put p.name v bound) = .ok out →
          Sorted.get? name out = Sorted.get? name bound := by
        intro v given h
        rw [ih other.2 h, Sorted.get?_put, if_neg (fun heq => other.1 heq.symm)]
      simp only [bindKeywords] at h
      split at h
      · obtain ⟨v, -, h⟩ := ok_of_bind h
        exact later h
      · exact later h

/-- What is bound to a keyword: its default, or the checked value that is given for it. -/
theorem get?_bindKeywords {op : String} {path : Path} {ps : List Param}
    (distinct : (ps.map Param.name).Nodup) {given bound out : List (String × Value)}
    (h : bindKeywords op path ps given bound = .ok out) {p : Param} (hp : p ∈ ps) :
    (Sorted.get? p.name given = none ∧ Sorted.get? p.name out = some p.missing) ∨
      ∃ v w, Sorted.get? p.name given = some v ∧ checkValue op path p v = .ok w ∧
        Sorted.get? p.name out = some w := by
  induction ps generalizing given bound with
  | nil => cases hp
  | cons q ps ih =>
      rw [List.map_cons, List.nodup_cons] at distinct
      simp only [bindKeywords] at h
      rcases List.mem_cons.1 hp with rfl | hp
      · split at h
        · rename_i v found
          obtain ⟨w, checked, h⟩ := ok_of_bind h
          have bound := get?_bindKeywords_of_not_mem distinct.1 h
          rw [Sorted.get?_put, if_pos rfl] at bound
          exact .inr ⟨v, w, found, checked, bound⟩
        · rename_i absent
          have bound := get?_bindKeywords_of_not_mem distinct.1 h
          rw [Sorted.get?_put, if_pos rfl] at bound
          exact .inl ⟨absent, bound⟩
      · have apart : p.name ≠ q.name := fun heq => distinct.1 (heq ▸ List.mem_map.2 ⟨p, hp, rfl⟩)
        have later : ∀ {bound}, bindKeywords op path ps (Sorted.erase q.name given) bound = .ok out →
            (Sorted.get? p.name given = none ∧ Sorted.get? p.name out = some p.missing) ∨
              ∃ v w, Sorted.get? p.name given = some v ∧ checkValue op path p v = .ok w ∧
                Sorted.get? p.name out = some w := by
          intro bound h
          have found := ih distinct.2 h hp
          rwa [Sorted.get?_erase, if_neg apart] at found
        split at h
        · obtain ⟨w, -, h⟩ := ok_of_bind h
          exact later h
        · exact later h

end Signature

namespace Env

variable {env env' : Env} {catalog : Catalog} {n n' levels levels' : Nat} {context context' : Context}
  {v v' : Value}

/-- An argument that is required and given was evaluated and taken as its parameter wants it. -/
theorem Gathers.required {o : Operator} {call : Call} {args : Arguments}
    (h : env.Gathers catalog n context o call args) {i : Nat} {p : Param}
    (hp : o.signature.positional[i]? = some p) (required : p.default = none)
    (present : args.positionalAt i ≠ .nil) : ∃ e v, call.args[i]? = some e ∧
      env.Yields catalog n context e v ∧ p.type.coerce? v = some (args.positionalAt i) := by
  obtain ⟨path, positional, keywords, hpositional, -, bound⟩ := h.bound
  obtain ⟨-, taken, -⟩ := Signature.bind_eq_ok_iff.1 bound
  rw [Arguments.positionalAt, List.getD_eq_getElem?_getD] at present ⊢
  rcases Signature.bindPositional_at taken hp with missing | ⟨v, w, given, checked, found⟩
  · rw [missing, Option.getD_some, Param.missing, required] at present
    exact absurd rfl present
  · rw [found, Option.getD_some]
    obtain ⟨inside, value⟩ := List.getElem?_eq_some_iff.1 given
    have shorter : i < call.args.length := by
      rw [hpositional.length_eq]
      exact inside
    refine ⟨call.args[i], v, List.getElem?_eq_getElem shorter, ?_, ?_⟩
    · rw [← value]
      exact hpositional.get shorter inside
    · unfold Signature.checkValue at checked
      rw [required, Option.isSome_none, Bool.and_false, if_neg Bool.false_ne_true] at checked
      split at checked
      · rename_i coerced
        cases checked
        exact coerced
      · cases checked

/-- A keyword that is not given has its default, another one was evaluated and checked. -/
theorem Gathers.keyword {o : Operator} {call : Call} {args : Arguments}
    (h : env.Gathers catalog n context o call args)
    (distinct : (o.signature.keywords.map Param.name).Nodup) {p : Param}
    (hp : p ∈ o.signature.keywords) :
    (call.keyword? p.name = none ∧ args.keyword p.name = p.missing) ∨
      ∃ e v path, call.keyword? p.name = some e ∧ env.Yields catalog n context e v ∧
        Signature.checkValue call.op path p v = .ok (args.keyword p.name) := by
  obtain ⟨path, positional, keywords, -, hkeywords, bound⟩ := h.bound
  obtain ⟨-, -, taken⟩ := Signature.bind_eq_ok_iff.1 bound
  unfold Arguments.keyword Application.keyword?
  rcases Sorted.get?_forall₂ hkeywords p.name with ⟨absent, absent'⟩ | ⟨e, v, given, given', yields⟩
  · rcases Signature.get?_bindKeywords distinct taken hp with ⟨-, found⟩ | ⟨v, w, given, -⟩
    · rw [found]
      exact .inl ⟨absent, rfl⟩
    · cases absent'.symm.trans given
  · rcases Signature.get?_bindKeywords distinct taken hp with ⟨absent, -⟩ | ⟨v', w, found, checked, out⟩
    · cases given'.symm.trans absent
    · cases given'.symm.trans found
      rw [out]
      exact .inr ⟨e, v, path, given, yields, checked⟩

/-- The operators of applications. -/
theorem operator_cases (builtin : env.registry = .builtin) {call : Call} {o : Operator}
    (found : env.registry.get? call.op = some o) : o.name = call.op ∧
      (o = Operator.series ∨ o = Operator.constant ∨ o = Operator.today ∨ o = Operator.timeShifted ∨
        o = Operator.asOf ∨ ∃ run, o.Plain run) := by
  rw [builtin] at found
  obtain ⟨known, name⟩ := Registry.builtin_get? found
  exact ⟨name, Operator.builtin_cases known⟩

/-- The operators of applications that do not look at the revision of the query. -/
theorem steady_cases (builtin : env.registry = .builtin) {call : Call} (steady : call.Steady)
    {o : Operator} (found : env.registry.get? call.op = some o) :
    o = Operator.series ∨ o = Operator.constant ∨ o = Operator.timeShifted ∨ ∃ run, o.Plain run := by
  obtain ⟨name, cases⟩ := operator_cases builtin found
  rcases cases with rfl | rfl | rfl | rfl | rfl | plain
  · exact .inl rfl
  · exact .inr (.inl rfl)
  · exact absurd name.symm steady.1
  · exact .inr (.inr (.inl rfl))
  · exact absurd name.symm steady.2
  · exact .inr (.inr (.inr plain))

/-- Two evaluations of an expression differ in series only. -/
theorem Yields.alike (builtin : env.registry = .builtin) (builtin' : env'.registry = .builtin)
    {e : Expr} (steady : e.Steady) (h : env.Yields catalog levels context e v)
    (h' : env'.Yields catalog levels' context' e v') : Value.Related (fun _ _ => True) v v' := by
  refine Yields.related (Q := fun _ _ e => e.Steady) ?_ steady h h'
  intro n n' context context' call v v' steady ih h h'
  obtain ⟨_, o, found, -⟩ := h.call
  have found' : env'.registry.get? call.op = some o := by rw [builtin', ← builtin, found]
  rcases steady_cases builtin steady.self found with rfl | rfl | rfl | ⟨run, plain⟩
  · obtain ⟨_, _, _, -, -, -, rfl⟩ := h.series found
    obtain ⟨_, _, _, -, -, -, rfl⟩ := h'.series found'
    exact .series trivial
  · obtain ⟨_, _, -, -, rfl⟩ := h.constant found
    obtain ⟨_, _, -, -, rfl⟩ := h'.constant found'
    exact .series trivial
  · obtain ⟨_, _, _, _, _, _, _, -, -, -, -, -, -, -, rfl⟩ := h.timeShifted found
    obtain ⟨_, _, _, _, _, _, _, -, -, -, -, -, -, -, rfl⟩ := h'.timeShifted found'
    exact .series trivial
  · obtain ⟨args, gathers, made⟩ := h.plain found plain
    obtain ⟨args', gathers', made'⟩ := h'.plain found' plain
    have related := gathers.related gathers' plain.defaults
      (fun e he v v' h h' => ih (steady.argument he) h h')
    exact plain.whole Series.closedWhole_any args args' v v' related made made'

/-- Texts stand in expressions as they are. -/
theorem Yields.text? (builtin : env.registry = .builtin) {e : Expr} {text : String}
    (h : env.Yields catalog levels context e (.str text)) : e.text? = some text := by
  cases e with
  | literal l =>
      have value := h.literal
      cases l with
      | str s =>
          cases value
          rfl
      | _ => cases value
  | symbol name =>
      cases h.symbol
      rfl
  | call call =>
      cases levels with
      | zero => exact absurd h not_yields_zero
      | succ n =>
          obtain ⟨_, o, found, -⟩ := h.call
          rcases (operator_cases builtin found).2 with rfl | rfl | rfl | rfl | rfl | ⟨run, plain⟩
          · obtain ⟨_, _, _, -, -, -, value⟩ := h.series found
            cases value
          · obtain ⟨_, _, -, -, value⟩ := h.constant found
            cases value
          · cases h.today found
          · obtain ⟨_, _, _, _, _, _, _, -, -, -, -, -, -, -, value⟩ := h.timeShifted found
            cases value
          · obtain ⟨_, _, _, _, _, -, -, -, -, -, value⟩ := h.asOf found
            cases value
          · obtain ⟨args, -, made⟩ := h.plain found plain
            exact absurd rfl (plain.textless args _ made text)

/-- The name that `series` reads stands in its application. -/
theorem Gathers.seriesName? (builtin : env.registry = .builtin) {call : Call} (op : call.op = "series")
    {args : Arguments} {name : String}
    (h : env.Gathers catalog n context Operator.series call args) (text : args.textAt 0 = .ok name) :
    call.seriesName? = some name := by
  have given := Arguments.textAt_ok text
  have present : args.positionalAt 0 ≠ .nil := by simp [given]
  have param : Operator.series.signature.positional[0]? = some { name := "name", type := .str } := rfl
  obtain ⟨e, v, first, yields, coerced⟩ := h.required param rfl present
  rw [given] at coerced
  have value : v = .str name := by
    cases v <;> simp_all [ParamType.coerce?]
  subst value
  have found := yields.text? builtin
  rw [Application.seriesName?_of_op op, List.head?_eq_getElem?, first]
  exact found

/-- The revision date of `constant` is the value of an argument. -/
theorem Gathers.revision {call : Call} {args : Arguments} {revision : Instant}
    (h : env.Gathers catalog n context Operator.constant call args)
    (given : args.instantAt 4 = .ok revision) : ∃ e v, call.args[4]? = some e ∧
      env.Yields catalog n context e v ∧ ParamType.timestamp.coerce? v = some (.timestamp revision) := by
  have found := Arguments.instantAt_ok given
  have present : args.positionalAt 4 ≠ .nil := by simp [found]
  have param : Operator.constant.signature.positional[4]? =
    some { name := "revdate", type := .timestamp } := rfl
  obtain ⟨e, v, fifth, yields, coerced⟩ := h.required param rfl present
  rw [found] at coerced
  exact ⟨e, v, fifth, yields, coerced⟩

end Env

end SeriesLang
