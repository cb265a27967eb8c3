import SeriesLang.Proofs.Engine.Expansion
import SeriesLang.Proofs.Engine.Nesting
import SeriesLang.Proofs.Query.Renamed

/-! # Renamed references

When the formulas read a series by another name, and the store has the series under that name, nothing is
worth anything else: whatever a formula was worth before it is worth afterwards.
-/

namespace SeriesLang

variable {old new name : String}

theorem Database.catalog_of_not_contains {db : Database} (h : db.formulas.contains name = false) :
    db.catalog name = .ok none := by
  refine catalog_of_none (Option.eq_none_iff_forall_ne_some.2 fun row found => ?_)
  rw [Table.contains_of_row? found] at h
  cases h

/-- The trees that are laid over the catalog are the renamed ones: where the old name is not read, nothing is
    renamed. -/
theorem Renaming.catalog_changes {db : Database} {formulas : List (String × String × Expr)}
    (table : db.formulas.Kept) (read : readAll db = .ok formulas) (old new name : String) :
    db.catalog.overlaid (changes old new formulas) name =
      (db.catalog name).map (Option.map (Expr.renameSeries old new)) := by
  cases hrow : db.formulas.row? name with
  | none =>
      have absent := Database.catalog_of_none hrow
      rw [Catalog.overlaid_of_not_mem, absent]
      · rfl
      · intro hmem
        obtain ⟨p, hp, rfl⟩ := List.mem_map.1 hmem
        obtain ⟨e, stored, -⟩ := stored_of_changes table read hp
        cases absent.symm.trans stored
  | some row =>
      obtain ⟨tree, hmem⟩ := (mem_readAll table read).2 hrow
      have stored := (catalog_iff_mem_readAll table read).2 ⟨_, hmem⟩
      rw [stored]
      unfold Catalog.overlaid
      cases found : Sorted.get? name (changes old new formulas) with
      | some tree' =>
          obtain ⟨e, stored', rfl⟩ := stored_of_changes table read (Sorted.mem_of_get? found)
          cases stored.symm.trans stored'
          rfl
      | none =>
          have unread : old ∉ tree.seriesNames := fun reads =>
            Sorted.get?_eq_none_iff.1 found (name, tree.renameSeries old new) (List.mem_map.2
              ⟨_, List.mem_filter.2 ⟨hmem, List.contains_iff_mem.2 reads⟩, rfl⟩) rfl
          rw [stored]
          simp only [Except.map, Option.map_some, Expr.renameSeries_of_unread new tree unread]

namespace Engine

variable {db : Database} {formulas : List (String × String × Expr)}

theorem Renamable.unread (h : Renamable db new formulas) (table : db.formulas.Kept) {tree : Expr}
    (stored : db.catalog name = .ok (some tree)) : new ∉ tree.seriesNames := by
  obtain ⟨text, hmem⟩ := (Renaming.catalog_iff_mem_readAll table h.read).1 stored
  intro reads
  have reader : (name, text, tree) ∈ Renaming.readers new formulas :=
    List.mem_filter.2 ⟨hmem, List.contains_iff_mem.2 reads⟩
  rw [h.free] at reader
  cases reader

/-- The trees that are laid over the catalog are those of the formulas that read the old name. -/
theorem Renamable.catalog (h : Renamable db new formulas) (table : db.formulas.Kept)
    (primary : db.formulas.contains old = false) (free : db.formulas.contains new = false) :
    db.catalog.Renamed old new (db.catalog.overlaid (Renaming.changes old new formulas)) where
  formula {name tree} stored :=
    ⟨_, by rw [Renaming.catalog_changes table h.read, stored]; rfl, h.unread table stored, rfl⟩
  unnamed {name} absent := by
    rw [Renaming.catalog_changes table h.read, absent]
    rfl
  oldUnnamed := Database.catalog_of_not_contains primary
  newUnnamed := Database.catalog_of_not_contains free

end Engine

namespace Session

variable {s t : Session} {names : List String}

/-- After a renaming the formulas are the renamed ones. -/
theorem Trusted.catalog_renamed (trusted : s.Trusted) (table : s.database.formulas.Kept)
    (renamed : Engine.renameReferences old new s = (.ok names, t))
    (primary : s.database.formulas.contains old = false)
    (free : s.database.formulas.contains new = false) :
    s.database.catalog.Renamed old new t.database.catalog := by
  obtain ⟨formulas, renamable, -, outcome⟩ :=
    (Engine.contract_renameReferences old new s rfl).1 names t renamed
  have catalogs := renamable.catalog table primary free
  rcases outcome with ⟨idle, rfl⟩ | ⟨writes, planned, rfl⟩
  · rw [idle] at catalogs
    exact catalogs
  · rw [trusted.synced.answer] at planned
    have renames := Database.Renames.ofPlan table renamable.read planned
    have same : (s.synced.renamed old new formulas writes).database.catalog = _ := renames.catalog table
    rw [same]
    exact catalogs

/-- The session with another store and other settings. -/
def equipped (s : Session) (store : Store) (config : Config) : Session :=
  ⟨{ s.engine with store, config }, s.database⟩

theorem Trusted.equipped (trusted : s.Trusted) (store : Store) (config : Config) :
    (s.equipped store config).Trusted :=
  fun same => trusted same

/-- What a request was worth before a renaming, the renamed request is worth afterwards. -/
theorem Trusted.evaluateSeries_renamed (trusted : s.Trusted) (builtin : s.engine.registry = .builtin)
    (table : s.database.formulas.Kept) (renamed : Engine.renameReferences old new s = (.ok names, t))
    (primary : s.database.formulas.contains old = false)
    (free : s.database.formulas.contains new = false) {request request' : String} {e : Expr}
    (read : Expr.ofRequest request = .ok e) (unread : new ∉ e.seriesNames)
    (read' : Expr.ofRequest request' = .ok (e.renameSeries old new)) (config : Config)
    {options : ReadOptions} {series : Series}
    (evaluated : (Engine.evaluateSeries request options (s.equipped s.engine.store config)).1 = .ok series) :
    (Engine.evaluateSeries request' options (t.equipped (s.engine.store.rename old new) config)).1 =
      .ok series := by
  obtain ⟨_, -, moves⟩ := (Engine.moves_renameReferences old new s rfl).1 names t renamed
  have catalogs := trusted.catalog_renamed table renamed primary free
  rw [(trusted.equipped _ config).evaluateSeries_iff read] at evaluated
  have again := Env.evaluate_renamed builtin rfl catalogs unread evaluated
  have surroundings : (t.equipped (s.engine.store.rename old new) config).engine.env options.cancelled =
      ((s.equipped s.engine.store config).engine.env options.cancelled).renamed old new := by
    simp only [Session.equipped, Engine.env, Env.renamed, moves.registry]
    rfl
  rw [((moves.trusted trusted).equipped _ config).evaluateSeries_iff read', surroundings]
  exact again

end Session

namespace Shared

/-- Two series, one of them with a second revision. -/
def revised : Store :=
  uneven.insert "a" { seconds := 40, nanos := 0 } [({ seconds := 20, nanos := 0 }, 9)]

/-- To read the instants up to one as of the first revision. -/
def readFirst : ReadOptions :=
  { context :=
    { window := ⟨none, some { seconds := 25, nanos := 0 }⟩
      revision := some { seconds := 15, nanos := 0 }
      now := { seconds := 60, nanos := 0 } } }

/-- In every state of a run, renaming references keeps what formulas are worth: if afterwards the store has
    under the new name what it had under the old one, every stored formula has the series that it had before,
    asked by its name as well as by its text, whatever window, revision and settings it is asked with. The
    old name must not be that of a formula, nor the new one. -/
theorem rename_keeps_series {n : Nat} {c : Shared} (h : Reachable .builtin n c)
    (room : c.engines.length ≤ 1 ∨ n < 2 ^ 63 - 1) {engine : Engine} (here : engine ∈ c.engines)
    {old new : String} {names : List String} {t : Session}
    (renamed : Engine.renameReferences old new ⟨engine, c.database⟩ = (.ok names, t))
    (primary : c.database.formulas.contains old = false)
    (free : c.database.formulas.contains new = false) {name : String} {e : Expr}
    (stored : c.database.catalog name = .ok (some e)) : ∃ e', t.database.catalog name = .ok (some e') ∧
      ∀ config options request s, (Engine.evaluateSeries request options
        (Session.equipped ⟨engine, c.database⟩ engine.store config)).1 = .ok s →
      (Expr.ofRequest request = .ok (.series name) → (Engine.evaluateSeries request options
        (t.equipped (engine.store.rename old new) config)).1 = .ok s) ∧
      (Expr.ofRequest request = .ok e → (Engine.evaluateSeries e'.canonical options
        (t.equipped (engine.store.rename old new) config)).1 = .ok s) := by
  obtain ⟨acyclic, trusted⟩ := h.safe room
  have trusted := trusted engine here
  have builtin := acyclic.registry engine here
  have table := acyclic.database.table
  obtain ⟨_, stored', unread, rfl⟩ :=
    (trusted.catalog_renamed table renamed primary free).formula stored
  refine ⟨_, stored', fun config options request s evaluated => ⟨fun read => ?_, fun read => ?_⟩⟩
  · -- Neither name is the one that is asked for.
    have stays : ∀ {other}, c.database.formulas.contains other = false →
        other ∉ (Expr.series name).seriesNames := by
      intro other absent reads
      rw [Expr.seriesNames_series, List.mem_singleton] at reads
      cases (Database.catalog_of_not_contains (reads ▸ absent)).symm.trans stored
    refine trusted.evaluateSeries_renamed builtin table renamed primary free read (stays free) ?_ config
      evaluated
    rw [read, Expr.renameSeries_of_unread new _ (stays primary)]
  · obtain ⟨call, rfl⟩ : ∃ call, e = .call call :=
      Env.Yields.isCall ⟨.root, "", ((trusted.equipped _ config).evaluateSeries_iff read).1 evaluated⟩
    refine trusted.evaluateSeries_renamed builtin table renamed primary free read unread ?_ config
      evaluated
    obtain ⟨row, -, text⟩ := Database.row?_of_catalog stored
    rw [← Expr.ofText_canonical_renameSeries text old new, Expr.renameSeries_call]
    exact Expr.ofRequest_canonical _

/-- A series is renamed that a formula reads by a bare word and with a keyword, and that another one reads
    behind the name of the first. Its new name must be escaped. Both formulas keep their values as of the
    first revision, with no more levels than they need. -/
theorem rename_keeps_series_escaped : ∃ c engine t s, Reachable .builtin 2 c ∧ engine ∈ c.engines ∧
    Engine.renameReferences "a" "x \"y\"\n;z" ⟨engine, c.database⟩ = (.ok ["g"], t) ∧
    (t.database.formulas.row? "g").map FormulaRow.text =
      some "(add (series \"x \\\"y\\\"\\n;z\" #:fill 0) (series \"b\"))" ∧
    (Engine.evaluateSeries "f" readFirst
      (Session.equipped ⟨engine, c.database⟩ engine.store { maxDepth := 5 })).1 = .ok s ∧
    (Engine.evaluateSeries "f" readFirst
      (t.equipped (engine.store.rename "a" "x \"y\"\n;z") { maxDepth := 5 })).1 = .ok s ∧
    s.points = [({ seconds := 20, nanos := 0 }, 7)] := by
  have first := (Reachable.start.join (r := .builtin) revised {}).step 0
    (.register "g" "(add (series a #:fill 0) (series \"b\"))" {})
  have second := first.step 0 (.register "f" "(+ 1 (series \"g\"))" {})
  obtain ⟨c, engine, reached, alone, here, primary, free, renamed, text, stored, evaluated⟩ :
      ∃ c engine, Reachable .builtin 2 c ∧ c.engines.length ≤ 1 ∧ engine ∈ c.engines ∧
        c.database.formulas.contains "a" = false ∧
        c.database.formulas.contains "x \"y\"\n;z" = false ∧
        (Engine.renameReferences "a" "x \"y\"\n;z" ⟨engine, c.database⟩).1 = .ok ["g"] ∧
        ((Engine.renameReferences "a" "x \"y\"\n;z" ⟨engine, c.database⟩).2.database.formulas.row?
          "g").map FormulaRow.text =
            some "(add (series \"x \\\"y\\\"\\n;z\" #:fill 0) (series \"b\"))" ∧
        c.database.catalog "f" = .ok (some (.call ⟨"+", [.literal (.int 1), .series "g"], []⟩)) ∧
        (Engine.evaluateSeries "f" readFirst
          (Session.equipped ⟨engine, c.database⟩ engine.store { maxDepth := 5 })).1.map Series.points =
            .ok [({ seconds := 20, nanos := 0 }, 7)] :=
    ⟨_, _, second, Nat.le_refl 1, List.mem_singleton.2 rfl, by decide +kernel, by decide +kernel,
      by decide +kernel, by decide +kernel, by decide +kernel, by decide +kernel⟩
  obtain ⟨s, evaluated, points⟩ := ok_of_map evaluated
  obtain ⟨_, -, keeps⟩ :=
    rename_keeps_series reached (.inl alone) here (Prod.ext renamed rfl) primary free stored
  exact ⟨c, engine, _, s, reached, here, Prod.ext renamed rfl, text, evaluated,
    (keeps _ _ _ _ evaluated).1 (by decide +kernel), points⟩

end Shared

end SeriesLang
