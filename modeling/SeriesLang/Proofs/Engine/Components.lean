import SeriesLang.Proofs.Engine.Traffic

/-! # Components

The components of a stored formula are told from its text as it is, but what they stand for is looked up
behind the cache. Nothing makes the engine follow the epoch first, so the answer is only that of the
database if the engine has done so since the last write.
-/

namespace SeriesLang

namespace Dependencies

variable {r : Registry} {store : Store} {catalog : Catalog}

/-- Names are noted as soon as the formulas that some of them have can be read. -/
theorem foldlM_note_ok {refs : List String} (readable : ∀ ref ∈ refs, ∃ tree, catalog ref = .ok tree)
    (found : Dependencies) : ∃ out, refs.foldlM (note store catalog) found = .ok out := by
  induction refs generalizing found with
  | nil => exact ⟨found, rfl⟩
  | cons ref rest ih =>
      obtain ⟨tree, answer⟩ := readable ref List.mem_cons_self
      obtain ⟨out, noted⟩ := ih (fun other hother => readable other (List.mem_cons_of_mem _ hother))
        (Sorted.put ref (standsFor store ref tree) found)
      refine ⟨out, ?_⟩
      rw [List.foldlM_cons, note, answer]
      exact noted

/-- What a name stands for in the tables. -/
theorem Stands.eq {db : Database} {p : String × Dependency} (h : Stands store db.catalog p) :
    p.2 = if db.formulas.contains p.1 then .formula else .stored store p.1 := by
  obtain ⟨tree, answer, kind⟩ := h
  cases stored : db.formulas.row? p.1 with
  | none =>
      rw [Database.catalog_of_none stored] at answer
      cases answer
      have absent : db.formulas.contains p.1 = false := by
        rw [Table.contains, ← Option.isSome_map, ← Table.row?, stored]
        rfl
      rw [kind, absent, if_neg Bool.false_ne_true]
      rfl
  | some row =>
      simp only [Database.catalog, stored] at answer
      obtain ⟨e, -, rfl⟩ := ok_of_map answer
      rw [kind, if_pos (Table.contains_of_row? stored)]
      rfl

end Dependencies

/-- The components of a stored formula are what the names in its text are found to be behind the cache. -/
theorem Engine.components_of_stored {s : Session} {name : String} {row : FormulaRow} {e : Expr}
    (stored : s.database.formulas.row? name = some row)
    (read : Expr.ofText row.text = .ok e) : (components name false s).1 =
      s.answer (Dependencies.direct s.engine.registry s.engine.store e) := by
  have found : text name s = (.ok (some row.text), s) := by
    show (Except.ok ((s.database.formulas.row? name).map FormulaRow.text), s) = _
    rw [stored, Option.map_some]
  show ((text name >>= _) s).1 = _
  rw [Action.run_bind, found]
  show ((Action.ofExcept (Expr.ofText row.text) >>= _) s).1 = _
  rw [read]
  rfl

namespace Shared

variable {db : Database} {backups : List (String × Database)} {c : Shared} {events : List Event}
  {engine : Engine} {name : String} {row : FormulaRow} {e : Expr}

/-- An engine that has followed the epoch tells what each name is that a stored text reads: a formula
    exactly when one is stored under the name, and else what its store has. -/
theorem components_tell_stored (run : Run ⟨[], db, backups⟩ events c) (mem : engine ∈ c.engines)
    (followed : engine.seenEpoch = c.database.epoch)
    (stored : c.database.formulas.row? name = some row) (read : Expr.ofText row.text = .ok e)
    (readable : ∀ ref ∈ engine.registry.references e, ∀ other,
      c.database.formulas.row? ref = some other → ∃ tree, Expr.ofText other.text = .ok tree) :
    ∃ found, (Engine.components name false ⟨engine, c.database⟩).1 = .ok found ∧
      (∀ ref, ref ∈ Dependencies.names found ↔ ref ∈ engine.registry.references e) ∧
      ∀ p ∈ found, p.2 =
        if c.database.formulas.contains p.1 then .formula else .stored engine.store p.1 := by
  have coherent := (run.current (.empty db backups) engine mem).trusted followed
  have answers : ∀ ref ∈ engine.registry.references e, ∃ tree, c.database.catalog ref = .ok tree := by
    intro ref href
    cases stored : c.database.formulas.row? ref with
    | none => exact ⟨none, Database.catalog_of_none stored⟩
    | some other =>
        obtain ⟨tree, text⟩ := readable ref href other stored
        exact ⟨some tree, Database.catalog_of_row? stored text⟩
  obtain ⟨found, noted⟩ := Dependencies.foldlM_note_ok answers []
  have direct : (Dependencies.direct engine.registry engine.store e).run c.database.catalog = .ok found :=
    (Dependencies.run_direct _ _ _ _).trans noted
  obtain ⟨stands, origin, reads⟩ := Dependencies.stands_direct direct
  refine ⟨found, ?_, fun ref => ⟨fun href => ?_, reads ref⟩, fun p hp => (stands p hp).eq⟩
  · exact (Engine.components_of_stored stored read).trans ((coherent.answer _).trans direct)
  · obtain ⟨p, hp, rfl⟩ := List.mem_map.1 href
    exact origin p hp

/-- Two engines come to an empty database. -/
def pair : Shared :=
  (start.happen (.join {} {})).happen (.join {} {})

/-- The second engine registers a formula over a name that stands for nothing and looks at its components.
    Then the first one registers a formula of that name. -/
def taken : Shared :=
  ((pair.happen (.command 1 (.register "f" "(series \"g\")" { rejectUnknown := false }))).happen
    (.command 1 (.components "f" false))).happen
      (.command 0 (.register "g" "(series \"s\")" { rejectUnknown := false }))

theorem run_taken : ∃ events, Run ⟨[], .create, []⟩ events taken :=
  ⟨_, (((((Run.none.step (.join {} {}) (by decide +kernel)).step
    (.join {} {}) (by decide +kernel)).step
    (.command 1 (.register "f" "(series \"g\")" { rejectUnknown := false })) (by decide +kernel)).step
    (.command 1 (.components "f" false)) (by decide +kernel)).step
    (.command 0 (.register "g" "(series \"s\")" { rejectUnknown := false })) (by decide +kernel))⟩

/-- The second engine has kept that the name stands for nothing, and it looks at the components without
    following the epoch. -/
theorem components_stale : ∃ (events : List Event) (c : Shared) (engine : Engine),
    Run ⟨[], .create, []⟩ events c ∧ engine ∈ c.engines ∧
      (c.database.formulas.row? "f").map FormulaRow.text = some "(series \"g\")" ∧
      c.database.formulas.contains "g" = true ∧
      (Engine.components "f" false ⟨engine, c.database⟩).1.toOption = some [("g", .unknown)] := by
  obtain ⟨events, run⟩ := run_taken
  have stale : taken.engines[1]?.any (fun engine =>
      (Engine.components "f" false ⟨engine, taken.database⟩).1.toOption = some [("g", .unknown)]) =
        true := by decide +kernel
  obtain ⟨engine, here, told⟩ := (Option.any_eq_true _ _).1 stale
  exact ⟨events, taken, engine, run, List.mem_of_getElem? here, by decide +kernel, by decide +kernel,
    of_decide_eq_true told⟩

/-- Once the second engine has been asked something that makes it follow the epoch, it tells the formula. -/
theorem components_tell_stored_followed : ∃ (events : List Event) (c : Shared) (engine : Engine)
    (found : Dependencies), Run ⟨[], .create, []⟩ events c ∧ engine ∈ c.engines ∧
      c.database.formulas.contains "g" = true ∧
      (Engine.components "f" false ⟨engine, c.database⟩).1 = .ok found ∧
      (∀ ref, ref ∈ Dependencies.names found ↔ ref = "g") ∧ ∀ p ∈ found, p.2 = .formula := by
  obtain ⟨events, run⟩ := run_taken
  have run := run.step (.command 1 (.expanded "f")) (by decide +kernel)
  let c := taken.happen (.command 1 (.expanded "f"))
  have second : c.engines[1]?.any (fun engine => engine.seenEpoch = c.database.epoch &&
      engine.registry.references (.series "g") = ["g"]) = true := by decide +kernel
  obtain ⟨engine, here, told⟩ := (Option.any_eq_true _ _).1 second
  obtain ⟨followed, refs⟩ := (Bool.and_eq_true _ _).mp told
  replace refs := of_decide_eq_true refs
  obtain ⟨row, stored, text⟩ := Option.map_eq_some_iff.1 (by decide +kernel :
    (c.database.formulas.row? "f").map FormulaRow.text = some "(series \"g\")")
  obtain ⟨row', stored', text'⟩ := Option.map_eq_some_iff.1 (by decide +kernel :
    (c.database.formulas.row? "g").map FormulaRow.text = some "(series \"s\")")
  have read : Expr.ofText row.text = .ok (.series "g") := by
    rw [text]
    exact toOption_eq_some_iff.1 (by decide +kernel)
  have present : c.database.formulas.contains "g" = true := Table.contains_of_row? stored'
  obtain ⟨found, components, names, kinds⟩ := components_tell_stored run
    (List.mem_of_getElem? here) (of_decide_eq_true followed) stored read (fun ref href other hother => by
      rw [refs] at href
      cases List.mem_singleton.1 href
      cases stored'.symm.trans hother
      exact ⟨.series "s", text' ▸ toOption_eq_some_iff.1 (by decide +kernel)⟩)
  have only : ∀ ref, ref ∈ Dependencies.names found ↔ ref = "g" := fun ref => by
    rw [names ref, refs, List.mem_singleton]
  refine ⟨_, c, engine, found, run, List.mem_of_getElem? here, present, components, only,
    fun p hp => ?_⟩
  rw [kinds p hp, (only p.1).1 (List.mem_map_of_mem hp), if_pos present]

end Shared

end SeriesLang
