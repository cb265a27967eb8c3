import SeriesLang.Proofs.Engine.Deletion
import SeriesLang.Proofs.Expr.RoundTrip
import SeriesLang.Proofs.Query.Nesting

/-! # The deepest formulas

Formulas can be registered that are read one by the other, up to a greatest depth. Of the deepest of them
all names are found, but neither can it be told whether it looks at one instant at a time, nor are its
revision dates found.
-/

namespace SeriesLang

namespace Expr

theorem calls_series (name : String) :
    (Expr.series name).calls = [⟨"series", [.literal (.str name)], []⟩] := rfl

theorem seriesNames_series (name : String) : (Expr.series name).seriesNames = [name] := rfl

theorem ofText_canonical_series (name : String) :
    ofText (Expr.series name).canonical = .ok (.series name) :=
  ofText_eq_ok_iff.2 (parse_canonical_of_readable (readable_series name))

end Expr

namespace Registry

theorem checkTree_series (name : String) : builtin.checkTree (.series name) = .ok () := by
  simp only [Expr.series, checkTree, checkAt, find, builtin_get?_series]
  rfl

theorem references_series (name : String) : builtin.references (.series name) = [name] := by
  simp only [Expr.series, references, builtin_get?_series]
  rfl

end Registry

namespace Dependencies

variable {store : Store} {catalog : Catalog} {name : String} {tree : Option Expr}

/-- The search from a name visits that name. -/
theorem run_expand_series (known : catalog name = .ok tree) (room : Nat) (stack : List String)
    (found : Dependencies) :
    (expand .builtin store (room + 1) stack found (.series name)).run catalog =
      visit .builtin store catalog room stack found (name, standsFor store name tree) := by
  have direct : (direct .builtin store (.series name)).run catalog =
      .ok [(name, standsFor store name tree)] := by
    have noted : note store catalog [] name = .ok [(name, standsFor store name tree)] := by
      rw [note, known]
      rfl
    rw [run_direct, Registry.references_series, foldlM_cons_ok noted]
    rfl
  rw [run_expand, direct]
  show List.foldlM _ found [_] = _
  rw [List.foldlM_cons]
  cases visit .builtin store catalog room stack found (name, standsFor store name tree) <;> rfl

/-- The first stored series that a name leads to is the one that its formula leads to. -/
theorem run_firstInfoAt_series (known : catalog name = .ok tree) (room : Nat) :
    (firstInfoAt store (room + 1) (.series name)).run catalog =
      tree.elim (.ok (store.info? name)) (fun e => (firstInfoAt store room e).run catalog) := by
  show (((Query.formula name).bind _).bind _).run catalog = _
  rw [Query.run_bind, Query.run_bind, Query.run_formula, known]
  cases tree with
  | none =>
      show (Except.ok (store.info? name)).bind _ = _
      cases store.info? name <;> rfl
  | some e =>
      show ((firstInfoAt store room e).run catalog).bind _ = (firstInfoAt store room e).run catalog
      cases (firstInfoAt store room e).run catalog with
      | error err => rfl
      | ok info => cases info <;> rfl

end Dependencies

namespace Staircase

variable {catalog : Catalog} {name : String} {env : Env} {context : Context} {stack : List String}

theorem run_callsArePointwise_series (follow : String → Query Bool) :
    (callsArePointwise .builtin follow (Expr.series name).calls).run catalog =
      (follow name).run catalog := by
  simp only [Expr.calls_series, callsArePointwise, Registry.builtin_get?_series]
  show ((follow name).bind _).run catalog = _
  rw [Query.run_bind]
  cases (follow name).run catalog with
  | error err => rfl
  | ok pointwise => cases pointwise <;> rfl

theorem run_datesOfCalls_series (builtin : env.registry = .builtin)
    (follow : String → Query (List Instant)) :
    (datesOfCalls env context follow (Expr.series name).calls).run catalog =
      (follow name).run catalog := by
  rw [Expr.calls_series, datesOfCalls_cons, datesOfCall, builtin, Registry.builtin_get?_series]
  show ((follow name).bind (fun below => Query.done ([] ++ below ++ []))).run catalog = _
  rw [Query.run_bind]
  cases (follow name).run catalog with
  | error err => rfl
  | ok below => exact congrArg Except.ok (List.append_nil below)

end Staircase

/-- The names of a chain: that of a stored series, and then those of formulas. -/
def link (i : Nat) : String :=
  String.ofList (List.replicate (i + 1) 'f')

theorem link_inj {i j : Nat} (h : link i = link j) : i = j := by
  have lengths := congrArg (fun name => name.toList.length) h
  simpa [link] using lengths

/-- Formulas that each read the one below, so many of them above a name that has none. -/
structure Catalog.Chain (catalog : Catalog) (n : Nat) : Prop where
  bottom : catalog (link 0) = .ok none
  formulas : ∀ i < n, catalog (link (i + 1)) = .ok (some (.series (link i)))

namespace Catalog.Chain

variable {catalog : Catalog} {n i : Nat} {stack : List String} {store : Store}

theorem nests (h : catalog.Chain n) (hi : i ≤ n) : (Expr.series (link i)).Nests catalog (i + 1) := by
  induction i with
  | zero =>
      intro name reads tree named
      rw [Expr.seriesNames_series, List.mem_singleton] at reads
      subst reads
      cases h.bottom.symm.trans named
  | succ i ih =>
      intro name reads tree named
      rw [Expr.seriesNames_series, List.mem_singleton] at reads
      subst reads
      cases (h.formulas i hi).symm.trans named
      exact ih (by omega)

theorem mem_names_put {dependency : Dependency} {found : Dependencies} {name : String}
    (h : name ∈ Dependencies.names (Sorted.put (link i) dependency found)) :
    name ∈ Dependencies.names found ∨ ∃ j ≤ i, name = link j := by
  rcases Dependencies.mem_names_put.1 h with rfl | h
  · exact .inr ⟨i, Nat.le_refl i, rfl⟩
  · exact .inl h

theorem apart_append (apart : ∀ j ≤ i + 1, link j ∉ stack) : ∀ j ≤ i, link j ∉ stack ++ [link (i + 1)] := by
  intro j hj hmem
  rcases List.mem_append.1 hmem with hmem | hmem
  · exact apart j (by omega) hmem
  · have same := link_inj (List.mem_singleton.1 hmem)
    omega

/-- All names of a chain are found, and no other ones. -/
theorem expand_ok (h : catalog.Chain n) (hi : i ≤ n) {room : Nat} (fits : i ≤ room)
    (apart : ∀ j ≤ i, link j ∉ stack) (store : Store) (found : Dependencies) :
    ∃ out, (Dependencies.expand .builtin store (room + 1) stack found (.series (link i))).run catalog =
      .ok out ∧ ∀ name ∈ Dependencies.names out, name ∈ Dependencies.names found ∨
        ∃ j ≤ i, name = link j := by
  have outside : ¬stack.contains (link i) = true := by simpa using apart i (Nat.le_refl i)
  induction i generalizing room stack found with
  | zero =>
      refine ⟨_, (Dependencies.run_expand_series h.bottom ..).trans
        (Dependencies.visit_found room outside fun formula => ?_), fun name => mem_names_put⟩
      exact absurd formula (Dependencies.stored_ne_formula store _)
  | succ i ih =>
      rw [Dependencies.run_expand_series (h.formulas i hi)]
      cases seen : Sorted.contains (link (i + 1)) found with
      | true =>
          rw [Dependencies.visit_found room outside (fun _ => seen)]
          exact ⟨_, rfl, fun name => mem_names_put⟩
      | false =>
          obtain ⟨room, rfl⟩ : ∃ k, room = k + 1 := ⟨room - 1, by omega⟩
          have fits : i ≤ room := by omega
          have apart := apart_append apart
          obtain ⟨out, run, origin⟩ := ih (by omega) fits apart
            (Sorted.put (link (i + 1)) .formula found) (by simpa using apart i (Nat.le_refl i))
          refine ⟨out, (Dependencies.visit_formula (h.formulas i hi) _ outside seen).trans run, ?_⟩
          intro name hname
          rcases origin name hname with hname | ⟨j, hj, rfl⟩
          · exact mem_names_put hname
          · exact .inr ⟨j, by omega, rfl⟩

/-- Above a stored series the names of a chain all stand for something. -/
theorem rejectUnknown_ok (h : catalog.Chain n) (hi : i ≤ n) (series : store.contains (link 0) = true)
    {room : Nat} {out : Dependencies}
    (run : (Dependencies.expand .builtin store room stack [] (.series (link i))).run catalog = .ok out)
    (origin : ∀ name ∈ Dependencies.names out, ∃ j ≤ i, name = link j) :
    out.rejectUnknown = .ok () := by
  have known : ∀ p ∈ out, p.2 ≠ .unknown := by
    intro p hp
    obtain ⟨tree, answer, stands⟩ := ((Dependencies.expanded_of_ok run).stands p hp).resolve_left List.not_mem_nil
    obtain ⟨j, hj, name⟩ := origin p.1 (List.mem_map.2 ⟨p, hp, rfl⟩)
    rw [stands, name]
    rw [name] at answer
    cases j with
    | zero =>
        cases h.bottom.symm.trans answer
        obtain ⟨stored, found⟩ := Option.isSome_iff_exists.1 series
        simp [Dependencies.standsFor, Dependency.stored, Store.info?, found]
    | succ j =>
        cases (h.formulas j (by omega)).symm.trans answer
        simp [Dependencies.standsFor]
  have none : out.filter (fun p => p.2 = .unknown) = [] := by
    refine List.filter_eq_nil_iff.2 fun p hp => ?_
    simpa using known p hp
  rw [Dependencies.rejectUnknown, none]

/-- The metadata of the stored series below a chain is found. -/
theorem firstInfo_ok (h : catalog.Chain n) (hi : i ≤ n) {room : Nat} (fits : i ≤ room) (store : Store) :
    ∃ info, (Dependencies.firstInfoAt store (room + 1) (.series (link i))).run catalog = .ok info := by
  induction i generalizing room with
  | zero => exact ⟨_, Dependencies.run_firstInfoAt_series h.bottom room⟩
  | succ i ih =>
      obtain ⟨room, rfl⟩ : ∃ k, room = k + 1 := ⟨room - 1, by omega⟩
      obtain ⟨info, run⟩ := ih (Nat.le_of_succ_le hi) (Nat.le_of_succ_le_succ fits)
      exact ⟨info, (Dependencies.run_firstInfoAt_series (h.formulas i hi) _).trans run⟩

theorem followFormula_deeper {α : Type} (h : catalog.Chain n) (hi : i < n)
    (apart : link (i + 1) ∉ stack) (leaf : α) (go : List String → Expr → Query α) :
    (Query.followFormula stack leaf (some go) (link (i + 1))).run catalog =
      (go (stack ++ [link (i + 1)]) (.series (link i))).run catalog := by
  rw [Query.followFormula, if_neg (by simpa using apart)]
  show ((Query.formula _).bind _).run catalog = _
  rw [Query.run_bind, Query.run_formula, h.formulas i hi]
  rfl

/-- A name at the top of a chain is refused where there is only room for its formulas. -/
theorem isPointwiseAt_refused (h : catalog.Chain n) (hi : i ≤ n) (apart : ∀ j ≤ i, link j ∉ stack) :
    ∃ path, (Staircase.isPointwiseAt .builtin i stack (.series (link i))).run catalog =
      .error (.recursionLimit Limits.resolveDepth path) := by
  induction i generalizing stack with
  | zero =>
      refine ⟨Dependencies.chain stack, (Staircase.run_callsArePointwise_series _).trans ?_⟩
      exact Staircase.followFormula_none (apart 0 (Nat.le_refl 0)) true
  | succ i ih =>
      obtain ⟨path, run⟩ := ih (by omega) (apart_append apart)
      refine ⟨path, (Staircase.run_callsArePointwise_series _).trans ?_⟩
      exact (h.followFormula_deeper hi (apart _ (Nat.le_refl _)) true _).trans run

theorem ownDatesAt_refused (h : catalog.Chain n) (hi : i ≤ n) (apart : ∀ j ≤ i, link j ∉ stack) {env : Env}
    (builtin : env.registry = .builtin) (context : Context) :
    ∃ path, (Staircase.ownDatesAt env context i stack (.series (link i))).run catalog =
      .error (.recursionLimit Limits.resolveDepth path) := by
  induction i generalizing stack with
  | zero =>
      refine ⟨Dependencies.chain stack, (Staircase.run_datesOfCalls_series builtin _).trans ?_⟩
      exact Staircase.followFormula_none (apart 0 (Nat.le_refl 0)) []
  | succ i ih =>
      obtain ⟨path, run⟩ := ih (by omega) (apart_append apart)
      refine ⟨path, (Staircase.run_datesOfCalls_series builtin _).trans ?_⟩
      exact (h.followFormula_deeper hi (apart _ (Nat.le_refl _)) [] _).trans run

/-- The stored series below the deepest chain is found, but its revision dates are not looked for. -/
theorem revisionDates_refused (h : catalog.Chain Limits.resolveDepth) {env : Env}
    (builtin : env.registry = .builtin) (idle : env.interrupt = none) (context : Context)
    (bound : Window) :
    ∃ path, (Staircase.revisionDates env context (.series (link Limits.resolveDepth)) bound).run catalog =
      .error (.recursionLimit Limits.resolveDepth path) := by
  obtain ⟨found, run, -⟩ := h.expand_ok (Nat.le_refl _) (Nat.le_refl _) (fun _ _ => List.not_mem_nil)
    env.store []
  obtain ⟨path, own⟩ := h.ownDatesAt_refused (Nat.le_refl _) (fun _ _ => List.not_mem_nil) builtin context
  have checks : ∀ leaf ∈ found.primaries, env.checkpoint ⟨leaf⟩ = .ok () :=
    fun leaf _ => by rw [Env.checkpoint, idle]
  rw [← builtin] at run
  exact ⟨path, by rw [Staircase.run_revisionDates run checks, own]; rfl⟩

end Catalog.Chain

namespace Workspace

/-- A state in which so many formulas of a chain have been registered. -/
structure Chained (w : Workspace) (n : Nat) : Prop where
  reached : Reachable .builtin w
  series : w.session.engine.store.contains (link 0) = true
  chain : w.session.database.catalog.Chain n
  free : ∀ i, n < i → w.session.database.formulas.row? (link i) = none
  needs : ∀ other, ∀ need ∈ w.session.database.dependencies other, ∃ j ≤ n, need = link j

variable {w : Workspace} {n : Nat}

theorem Chained.start {store : Store} (series : store.contains (link 0) = true) (config : Config) :
    Chained (.start .builtin store config) 0 where
  reached := .start store config
  series := series
  chain := ⟨Database.catalog_of_none rfl, nofun⟩
  free _ _ := rfl
  needs _ _ hneed := by cases hneed

/-- One more formula of a chain can be registered as long as it is not too deep. -/
theorem Chained.register (h : w.Chained n) (room : n < Limits.resolveDepth) :
    (w.after (Engine.register (link (n + 1)) (Expr.series (link n)).canonical {})).Chained (n + 1) := by
  have sound := h.reached.sound.session
  have absent := h.free (n + 1) (Nat.lt_succ_self n)
  have fresh : w.session.database.formulas.contains (link (n + 1)) = false := by
    rw [Table.contains, Option.isSome_eq_false_iff, Option.isNone_iff_eq_none]
    exact Option.map_eq_none_iff.1 absent
  have alone : w.session.database.dependents (link (n + 1)) = [] := by
    refine Database.dependents_eq_nil sound.sound.table fun other hmem => ?_
    obtain ⟨j, hj, same⟩ := h.needs other _ hmem
    have := link_inj same
    omega
  have apart : ∀ j ≤ n, link j ∉ [link (n + 1)] := by
    intro j hj hmem
    have := link_inj (List.mem_singleton.1 hmem)
    omega
  obtain ⟨out, run, origin⟩ := h.chain.expand_ok (Nat.le_refl n)
    (Nat.le_pred_of_lt room) apart w.session.engine.store []
  have origin : ∀ name ∈ Dependencies.names out, ∃ j ≤ n, name = link j :=
    fun name hname => (origin name hname).resolve_left List.not_mem_nil
  obtain ⟨info, derived⟩ := h.chain.firstInfo_ok (Nat.le_refl n) (Nat.le_of_lt room)
    w.session.engine.store
  obtain ⟨write, done, planned, named, needs, catalog⟩ := Engine.register_lone {} (fun _ => sound.coherent)
    (Expr.ofText_canonical_series _) (sound.registry ▸ Registry.checkTree_series _) fresh alone
    (sound.registry ▸ run) (h.chain.rejectUnknown_ok (Nat.le_refl n) h.series run origin) derived
  have needs : ∀ need ∈ write.needs, ∃ j ≤ n, need = link j := needs ▸ origin
  have others : ∀ i ≠ n + 1, (w.session.database.registered write []).catalog (link i) =
      w.session.database.catalog (link i) := by
    intro i hi
    rw [catalog, Catalog.overlaid_single, if_neg (fun same => hi (link_inj same))]
  have reached : Reachable .builtin (w.after _) :=
    h.reached.step (.register (link (n + 1)) (Expr.series (link n)).canonical {}) trivial
  rw [after, done] at reached ⊢
  refine ⟨reached, ?_, ⟨?_, fun i hi => ?_⟩, fun i hi => ?_, fun other need hneed => ?_⟩
  · exact w.session.synced_store ▸ h.series
  · exact (others 0 (by omega)).trans h.chain.bottom
  · by_cases top : i = n
    · subst top
      refine (congrFun catalog _).trans ?_
      rw [Catalog.overlaid_single, if_pos rfl]
    · exact (others (i + 1) (by omega)).trans (h.chain.formulas i (by omega))
  · refine (Database.putFormula_row? w.session.database write (link i)).trans ?_
    rw [named, if_neg (fun same => by have := link_inj same; omega)]
    exact h.free i (by omega)
  · obtain ⟨-, -, reads, -⟩ := Registration.plan_ok planned
    rw [← named] at reads
    have found : need ∈ (w.session.database.registered write []).dependencies other := hneed
    rw [Database.dependencies_registered _ reads] at found
    split at found
    · obtain ⟨j, hj, same⟩ := needs need found
      exact ⟨j, by omega, same⟩
    · obtain ⟨j, hj, same⟩ := h.needs other need found
      exact ⟨j, by omega, same⟩

/-- A chain can be registered that is as deep as the limit. -/
theorem exists_chained (h : n ≤ Limits.resolveDepth) : ∃ w, Chained w n := by
  induction n with
  | zero =>
      have series : (({} : Store).insert (link 0) { seconds := 0, nanos := 0 }
          [({ seconds := 1, nanos := 0 }, 5)]).contains (link 0) = true := by
        decide +kernel
      exact ⟨_, .start series {}⟩
  | succ n ih =>
      obtain ⟨w, chained⟩ := ih (Nat.le_of_succ_le h)
      exact ⟨_, chained.register h⟩

end Workspace

namespace Staircase

/-- Whatever formulas a database has, if no chain of them that starts in an expression is so deep that
    something is read by name at the end of it, then it can be told whether the expression looks at one instant
    at a time, and the search for its revision dates goes through all formulas. It can only be too deep where
    an operator evaluates one of its arguments for the dates. -/
theorem usable_of_nests {env : Env} (builtin : env.registry = .builtin) {db : Database} {e : Expr}
    (nests : e.Nests db.catalog Limits.resolveDepth) (limit : Nat) (path : Path) :
    (isPointwise env.registry e).run db.catalog ≠ .error (.recursionLimit limit path) ∧
    ∀ context bound,
      (revisionDates env context e bound).run db.catalog = .error (.recursionLimit limit path) →
        OwnDatesFail env db.catalog context e (.recursionLimit limit path) := by
  refine ⟨fun failed => ?_, fun context bound failed => ?_⟩
  · exact not_tooDeep_isPointwiseAt db.shallow_catalog nests failed ⟨limit, path, rfl⟩
  · exact revisionDates_tooDeep builtin db.shallow_catalog nests failed ⟨limit, path, rfl⟩

/-- All but the deepest formula of the deepest chain. -/
theorem usable_of_nests_chain : ∃ w : Workspace, w.Chained 63 ∧
    w.session.engine.registry = .builtin ∧
    (Expr.series (link 63)).Nests w.session.database.catalog Limits.resolveDepth ∧
    ∀ limit path, (isPointwise .builtin (.series (link 63))).run w.session.database.catalog ≠
        .error (.recursionLimit limit path) ∧
      ∀ context bound, (revisionDates (w.session.engine.env false) context (.series (link 63)) bound).run
          w.session.database.catalog = .error (.recursionLimit limit path) →
        OwnDatesFail (w.session.engine.env false) w.session.database.catalog context (.series (link 63))
          (.recursionLimit limit path) := by
  obtain ⟨w, chained⟩ := Workspace.exists_chained (n := 63) (by decide)
  have builtin : w.session.engine.registry = .builtin := chained.reached.sound.session.registry
  have nests := chained.chain.nests (Nat.le_refl 63)
  refine ⟨w, chained, builtin, nests, fun limit path => ?_⟩
  have registry : (w.session.engine.env false).registry = .builtin := builtin
  have usable := usable_of_nests registry nests limit path
  exact ⟨builtin ▸ usable.1, usable.2⟩

/-- The name of the deepest formula that can be registered is refused, though all that it reads is there. -/
theorem deepest_refused : ∃ (w : Workspace) (e : Expr) (found : Dependencies),
    Workspace.Reachable .builtin w ∧
    w.session.database.catalog (link Limits.resolveDepth) = .ok (some e) ∧
    (Dependencies.transitive .builtin w.session.engine.store (.series (link Limits.resolveDepth))).run
      w.session.database.catalog = .ok found ∧
    found.rejectUnknown = .ok () ∧
    (∃ path, (isPointwise .builtin (.series (link Limits.resolveDepth))).run w.session.database.catalog =
      .error (.recursionLimit Limits.resolveDepth path)) ∧
    ∀ env context bound, env.registry = .builtin → env.interrupt = none →
      ∃ path, (revisionDates env context (.series (link Limits.resolveDepth)) bound).run
        w.session.database.catalog = .error (.recursionLimit Limits.resolveDepth path) := by
  obtain ⟨w, chained⟩ := Workspace.exists_chained (Nat.le_refl Limits.resolveDepth)
  have top := chained.chain.formulas 63 (by decide)
  obtain ⟨found, run, origin⟩ := chained.chain.expand_ok (Nat.le_refl _) (Nat.le_refl _)
    (fun _ _ => List.not_mem_nil) w.session.engine.store []
  have known := chained.chain.rejectUnknown_ok (Nat.le_refl _) chained.series run
    (fun name hname => (origin name hname).resolve_left List.not_mem_nil)
  exact ⟨w, _, found, chained.reached, top, run, known,
    chained.chain.isPointwiseAt_refused (Nat.le_refl _) (fun _ _ => List.not_mem_nil),
    fun env context bound builtin idle => chained.chain.revisionDates_refused builtin idle context bound⟩

/-- Not every formula that was registered, and of which all names stand for something, is taken. -/
theorem not_usable_deepest : ¬ ∀ (w : Workspace) (name : String) (e : Expr) (found : Dependencies)
    (limit : Nat) (path : Path), Workspace.Reachable .builtin w →
    w.session.database.catalog name = .ok (some e) →
    (Dependencies.transitive .builtin w.session.engine.store (.series name)).run
      w.session.database.catalog = .ok found → found.rejectUnknown = .ok () →
    (isPointwise .builtin (.series name)).run w.session.database.catalog ≠
      .error (.recursionLimit limit path) := by
  intro usable
  obtain ⟨w, e, found, reached, stored, run, known, ⟨path, refused⟩, -⟩ := deepest_refused
  exact usable w _ e found _ path reached stored run known refused

end Staircase

end SeriesLang
