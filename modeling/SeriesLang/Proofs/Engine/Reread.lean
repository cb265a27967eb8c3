import SeriesLang.Proofs.Engine.Expansion
import SeriesLang.Proofs.Engine.Nesting
import SeriesLang.Proofs.Expr.Nesting
import SeriesLang.Proofs.Query.Shape

/-! # Expanded texts are read again

The components of an expanded formula are told from its text, which is read again. Each part of the text can be
read, but formulas that are read one by one may nest deeper together than texts are read. Then the components
are refused, though the formula itself is not.
-/

namespace SeriesLang

namespace Session

variable {s : Session} {name : String} {e' : Expr}

/-- The components of an expanded formula are those of what its text is read as. -/
theorem Trusted.components_expanded (trusted : s.Trusted)
    (expanded : (Engine.expanded name s).1 = .ok (some e')) :
    (Engine.components name true s).1 = (Expr.ofText e'.canonical).bind fun e =>
      (Dependencies.direct s.engine.registry s.engine.store e).run s.database.catalog := by
  obtain ⟨q, asks⟩ : ∃ q, Engine.expanded name s = (s.synced.answer q, s.synced.asked q) := ⟨_, rfl⟩
  rw [asks] at expanded
  have run : Engine.expanded name s = (.ok (some e'), s.synced.asked q) :=
    asks.trans (Prod.ext expanded rfl)
  -- Behind the expansion the cache is that of an engine that follows the epoch.
  have coherent : (s.synced.asked q).Coherent := trusted.synced.asked q
  show ((Engine.expanded name >>= _) s).1 = _
  rw [Action.run_bind, run]
  show ((Action.ofExcept (Expr.ofText e'.canonical) >>= _) (s.synced.asked q)).1 = _
  rw [Action.run_bind, Action.ofExcept]
  cases Expr.ofText e'.canonical with
  | error err => rfl
  | ok e =>
      show (s.synced.asked q).answer _ = _
      rw [coherent.answer, asked_registry, synced_registry]
      show (Dependencies.direct _ s.synced.engine.store e).run _ = _
      rw [synced_store]
      rfl

/-- The components of a formula are refused if it nests deeper than texts are read when it is expanded. -/
theorem Trusted.components_refused (trusted : s.Trusted)
    (expanded : (Engine.expanded name s).1 = .ok (some e')) (deeper : Expr.maxNesting < e'.nesting) :
    ∃ err, Expr.ofText e'.canonical = .error (.parse err) ∧
      (Engine.components name true s).1 = .error (.parse err) := by
  obtain ⟨err, refused⟩ := Expr.ofText_canonical_of_deeper (trusted.writable_expanded expanded) deeper
  refine ⟨err, refused, ?_⟩
  rw [trusted.components_expanded expanded, refused]
  rfl

end Session

namespace Registry

variable {e : Expr}

theorem builtin_get?_plus : builtin.get? "+" = some Operator.plus :=
  builtin_get?_of_mem (o := Operator.plus) (by simp [Operator.builtins])

theorem references_raised (n : Nat) (e : Expr) :
    builtin.references (.raised n e) = builtin.references e := by
  induction n with
  | zero => rfl
  | succ n ih =>
      rw [← ih]
      simp only [Expr.raised, references, builtin_get?_plus, referencesOfArgs, referencesOfKwargs,
        Option.bind_some, List.nil_append, List.append_nil]
      rfl

theorem checkTree_raised (n : Nat) (h : builtin.checkTree e = .ok ()) :
    builtin.checkTree (.raised n e) = .ok () := by
  refine (checkAt_ok_iff .root "" _).2 fun call hcall => ?_
  have below : builtin.Accepts e := (checkAt_ok_iff .root "" e).1 h
  rcases Expr.calls_raised hcall with hcall | ⟨op, args, kwargs⟩
  · exact below call hcall
  · refine ⟨Operator.plus, .root, op ▸ builtin_get?_plus, ?_⟩
    rw [Signature.checkCall, args, kwargs]
    rfl

end Registry

namespace Dependencies

variable {r : Registry} {store : Store} {catalog : Catalog} {e e' : Expr}

/-- What is found for an expression depends on the names that it reads itself. -/
theorem run_expand_congr (same : r.references e = r.references e') (room : Nat) (stack : List String)
    (found : Dependencies) :
    (expand r store room stack found e).run catalog = (expand r store room stack found e').run catalog := by
  cases room with
  | zero => rfl
  | succ room => rw [run_expand, run_expand, run_direct, run_direct, same]

theorem firstInfo_congr (same : e.seriesNames = e'.seriesNames) :
    firstInfo store e = firstInfo store e' := by
  rw [firstInfo, firstInfo, firstInfoAt, firstInfoAt, same]

end Dependencies

/-- A formula of sums over another one can be registered up to where texts are read. -/
theorem Engine.register_raised {s : Session} (trusted : s.Trusted) (builtin : s.engine.registry = .builtin)
    {name below : String} {found : Dependencies} {info : Option SeriesMeta}
    (fresh : s.database.formulas.contains name = false) (alone : s.database.dependents name = [])
    (run : (Dependencies.ofFormula .builtin s.engine.store name (.series below)).run s.database.catalog =
      .ok found) (known : found.rejectUnknown = .ok ())
    (derived : (Dependencies.firstInfo s.engine.store (.series below)).run s.database.catalog = .ok info)
    {n : Nat} (fits : n < Expr.maxNesting) :
    ∃ t, (register name (Expr.raised n (.series below)).canonical {} s).2 = t ∧ t.Coherent ∧
      t.database.catalog = s.database.catalog.overlaid [(name, .raised n (.series below))] := by
  have read : Expr.ofText (Expr.raised n (.series below)).canonical = .ok (.raised n (.series below)) := by
    refine Expr.ofText_canonical_of_writable (Expr.Writable.raised ⟨_, Expr.readable_series below⟩ n) ?_
    rw [Expr.nesting_raised]
    exact fits
  have found : (Dependencies.ofFormula s.engine.registry s.engine.store name (.raised n (.series below))).run
      s.database.catalog = .ok found := by
    rw [builtin]
    exact (Dependencies.run_expand_congr (Registry.references_raised n _) ..).trans run
  have checked : s.engine.registry.checkTree (.raised n (.series below)) = .ok () :=
    builtin ▸ Registry.checkTree_raised n (Registry.checkTree_series below)
  have info : (Dependencies.firstInfo s.engine.store (.raised n (.series below))).run s.database.catalog =
      .ok info := by
    rw [Dependencies.firstInfo_congr (Expr.seriesNames_raised n _)]
    exact derived
  obtain ⟨w, done, -, -, -, catalog⟩ := register_lone {} trusted read checked fresh
    alone found known info
  rw [done]
  exact ⟨_, rfl, .written _ _, catalog⟩

namespace Shared

/-- What the only engine does. -/
theorem act_alone {c : Shared} {engine : Engine} (only : c.engines = [engine]) (f : Workspace → Workspace) :
    c.act 0 f = ⟨[(f ⟨⟨engine, c.database⟩, c.backups⟩).session.engine],
      (f ⟨⟨engine, c.database⟩, c.backups⟩).session.database,
      (f ⟨⟨engine, c.database⟩, c.backups⟩).backups⟩ := by
  unfold act
  rw [only]
  rfl

/-- A formula that is a sum over a series can be read by another one. -/
theorem exists_level : ∃ c engine, Reachable .builtin 1 c ∧ c.engines = [engine] ∧
    c.database.catalog "g" = .ok (some (.raised 1 (.series "b"))) ∧ c.database.catalog "b" = .ok none ∧
    c.database.formulas.contains "f" = false ∧ c.database.dependents "f" = [] ∧
    (Dependencies.ofFormula .builtin engine.store "f" (.series "g")).run c.database.catalog =
      .ok [("b", .primary {}), ("g", .formula)] ∧
    (Dependencies.firstInfo engine.store (.series "g")).run c.database.catalog = .ok (some {}) := by
  have first := (Reachable.start.join (r := .builtin) uneven {}).step 0
    (.register "g" "(+ 1 (series \"b\"))" {})
  exact ⟨_, _, first, rfl, by decide +kernel, by decide +kernel, by decide +kernel, by decide +kernel,
    by decide +kernel, by decide +kernel⟩

/-- As many sums can be registered over that formula as are read. Expanded, they are one more. -/
theorem expanded_raised {n : Nat} (fits : n < Expr.maxNesting) : ∃ c engine, Reachable .builtin 2 c ∧
    engine ∈ c.engines ∧ (⟨engine, c.database⟩ : Session).Coherent ∧
    (Engine.expanded "f" ⟨engine, c.database⟩).1 = .ok (some (.raised (n + 1) (.series "b"))) := by
  obtain ⟨c, engine, reached, only, below, series, fresh, alone, run, derived⟩ := exists_level
  have here : engine ∈ c.engines := only ▸ List.mem_singleton_self engine
  obtain ⟨acyclic, trusted⟩ := reached.safe (.inl (by rw [only]; exact Nat.le_refl 1))
  obtain ⟨t, left, coherent, catalog⟩ := Engine.register_raised (trusted engine here)
    (acyclic.registry engine here) fresh alone run rfl derived fits
  have second := reached.step 0 (.register "f" (Expr.raised n (.series "g")).canonical {})
  rw [act_alone only] at second
  have session : (Workspace.Operation.run ⟨⟨engine, c.database⟩, c.backups⟩
      (.register "f" (Expr.raised n (.series "g")).canonical {})).session = t := left
  rw [session] at second
  -- Nothing but the new formula has changed.
  have stored : t.database.catalog "f" = .ok (some (.raised n (.series "g"))) := by
    rw [catalog, Catalog.overlaid_single, if_pos rfl]
  have below : t.database.catalog "g" = .ok (some (.raised 1 (.series "b"))) := by
    rw [catalog, Catalog.overlaid_single, if_neg (by decide)]
    exact below
  have series : t.database.catalog "b" = .ok none := by
    rw [catalog, Catalog.overlaid_single, if_neg (by decide)]
    exact series
  refine ⟨_, t.engine, second, List.mem_singleton_self _, coherent, ?_⟩
  have trusted : (⟨t.engine, t.database⟩ : Session).Trusted := fun _ => coherent
  rw [trusted.expanded_ok stored (Expr.inlineFormulas_raised below series), ← Expr.raised_succ]
  exact congrArg (fun e => Except.ok (some e)) (Expr.foldConstants_raised rfl _)

/-- In every state of a run the text of an expanded formula is read as the tree with formulas written out and
    constants folded, and the components of that tree are told, if it nests no deeper than texts are read. If
    it nests deeper, both are refused. -/
theorem reread_expanded {r : Registry} {n : Nat} {c : Shared} (h : Reachable r n c)
    (room : c.engines.length ≤ 1 ∨ n < 2 ^ 63 - 1) {engine : Engine} (here : engine ∈ c.engines)
    {name : String} {e' : Expr} (expanded : (Engine.expanded name ⟨engine, c.database⟩).1 = .ok (some e')) :
    (∃ e written, c.database.catalog name = .ok (some e) ∧
      e.inlineFormulas.run c.database.catalog = .ok written ∧ e' = written.foldConstants) ∧
    (e'.nesting ≤ Expr.maxNesting → Expr.ofText e'.canonical = .ok e' ∧
      ∃ found, (Dependencies.direct r engine.store e').run c.database.catalog = .ok found ∧
        (Engine.components name true ⟨engine, c.database⟩).1 = .ok found) ∧
    (Expr.maxNesting < e'.nesting → ∃ err, Expr.ofText e'.canonical = .error (.parse err) ∧
      (Engine.components name true ⟨engine, c.database⟩).1 = .error (.parse err)) := by
  obtain ⟨acyclic, trusted⟩ := h.safe room
  have trusted := trusted engine here
  refine ⟨trusted.expanded expanded, fun fits => ?_, trusted.components_refused expanded⟩
  have read := Expr.ofText_canonical_of_writable (trusted.writable_expanded expanded) fits
  have components := trusted.components_expanded expanded
  obtain ⟨found, direct⟩ := acyclic.database.direct_ok engine.store e'
  rw [read, acyclic.registry engine here] at components
  exact ⟨read, found, direct, components.trans direct⟩

/-- A sum is folded in the formula that is written out. -/
theorem reread_expanded_folded : ∃ c engine e' found, Reachable .builtin 2 c ∧ engine ∈ c.engines ∧
    (Engine.expanded "f" ⟨engine, c.database⟩).1 = .ok (some e') ∧
    e'.canonical = "(* 2 (+ 3 (series \"b\")))" ∧ Expr.ofText e'.canonical = .ok e' ∧
    (Engine.components "f" true ⟨engine, c.database⟩).1 = .ok found ∧
    Dependencies.names found = ["b"] := by
  have first := (Reachable.start.join (r := .builtin) uneven {}).step 0
    (.register "g" "(+ (+ 1 2) (series \"b\"))" {})
  have second := first.step 0 (.register "f" "(* 2 (series \"g\"))" {})
  obtain ⟨c, engine, reached, alone, here, expanded, direct⟩ : ∃ c engine, Reachable .builtin 2 c ∧
      c.engines.length ≤ 1 ∧ engine ∈ c.engines ∧
      (Engine.expanded "f" ⟨engine, c.database⟩).1 = .ok (some (.call ⟨"*", [.literal (.int 2),
        .call ⟨"+", [.literal (.int 3), .series "b"], []⟩], []⟩)) ∧
      ((Dependencies.direct .builtin engine.store (.call ⟨"*", [.literal (.int 2),
        .call ⟨"+", [.literal (.int 3), .series "b"], []⟩], []⟩)).run c.database.catalog).map
          Dependencies.names = .ok ["b"] :=
    ⟨_, _, second, Nat.le_refl 1, List.mem_singleton.2 rfl, by decide +kernel, by decide +kernel⟩
  obtain ⟨-, fits, -⟩ := reread_expanded reached (.inl alone) here expanded
  obtain ⟨read, found, run, components⟩ := fits (by decide)
  rw [run] at direct
  exact ⟨c, engine, _, found, reached, here, expanded, by decide +kernel, read, components,
    Except.ok.inj direct⟩

/-- A formula is registered that is not read again once it is expanded. -/
theorem reread_refused : ∃ c engine e' err, Reachable .builtin 2 c ∧ engine ∈ c.engines ∧
    (Engine.expanded "f" ⟨engine, c.database⟩).1 = .ok (some e') ∧
    Expr.ofText e'.canonical = .error (.parse err) ∧
    (Engine.components "f" true ⟨engine, c.database⟩).1 = .error (.parse err) := by
  obtain ⟨c, engine, reached, here, coherent, expanded⟩ := expanded_raised (n := 255) (by decide)
  have trusted : (⟨engine, c.database⟩ : Session).Trusted := fun _ => coherent
  have deeper : Expr.maxNesting < (Expr.raised (255 + 1) (.series "b")).nesting := by
    rw [Expr.nesting_raised]
    decide
  obtain ⟨err, refused, components⟩ := trusted.components_refused expanded deeper
  exact ⟨c, engine, _, err, reached, here, expanded, refused, components⟩

/-- Not every expanded text is read again. -/
theorem not_reread_expanded : ¬ ∀ (n : Nat) (c : Shared) (engine : Engine) (name : String) (e' : Expr),
    Reachable .builtin n c → engine ∈ c.engines →
    (Engine.expanded name ⟨engine, c.database⟩).1 = .ok (some e') →
    Expr.ofText e'.canonical = .ok e' ∧
      ∀ err, (Engine.components name true ⟨engine, c.database⟩).1 ≠ .error (.parse err) := by
  intro reread
  obtain ⟨c, engine, e', err, reached, here, expanded, -, refused⟩ := reread_refused
  exact (reread 2 c engine "f" e' reached here expanded).2 err refused

end Shared

end SeriesLang
