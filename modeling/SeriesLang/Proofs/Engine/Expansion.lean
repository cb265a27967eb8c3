import SeriesLang.Engine.Inspect
import SeriesLang.Proofs.Engine.Sharing
import SeriesLang.Proofs.Expr.Expansion
import SeriesLang.Proofs.Query.Expanded

/-! # Expanded formulas

The text of an expanded formula says what the formula is made of, and what it is worth, too, unless a formula
in it counts on being read by name: then its points outside of the window and its options, which are not seen
behind its name, come to light.
-/

namespace SeriesLang

/-- What starts with a parenthesis is read as an expression. -/
theorem Expr.ofRequest_canonical (call : Call) :
    ofRequest (Expr.call call).canonical = ofText (Expr.call call).canonical := by
  obtain ⟨rest, chars⟩ : ∃ rest, (Expr.call call).chars = '(' :: rest := ⟨_, by rw [Expr.chars]⟩
  have same : Text.trimStart (Expr.call call).canonical = (Expr.call call).canonical := by
    rw [Text.trimStart, canonical, String.toList_ofList, chars, Text.dropBlanks,
      List.dropWhile_cons_of_neg (by decide)]
  have opens : (Expr.call call).canonical.startsWith "(" = true := by
    simp only [String.startsWith_string_iff, canonical, chars, String.toList_ofList]
    exact ⟨rest, rfl⟩
  rw [ofRequest, same]
  exact if_pos opens

namespace Session

variable {s : Session} {name : String}

theorem env_synced (s : Session) (cancelled : Bool) :
    s.synced.engine.env cancelled = s.engine.env cancelled := by
  unfold synced Engine.sync
  split <;> rfl

/-- What a request gives behind a cache that can be trusted. -/
theorem Trusted.evaluateSeries (trusted : s.Trusted) (text : String) (options : ReadOptions) :
    (Engine.evaluateSeries text options s).1 = (Expr.ofRequest text).bind fun e =>
      (((s.engine.env options.cancelled).evaluate options.context e).run s.database.catalog).bind
        Value.expectSeries := by
  rw [Engine.evaluateSeries, Action.run_bind]
  cases read : Expr.ofRequest text with
  | error e =>
      unfold Engine.evaluate
      rw [read]
      rfl
  | ok e =>
      have run : Engine.evaluate text options s =
          (s.synced.answer ((s.engine.env options.cancelled).evaluate options.context e),
            s.synced.asked ((s.engine.env options.cancelled).evaluate options.context e)) := by
        unfold Engine.evaluate
        rw [read, ← env_synced]
        rfl
      rw [run, trusted.synced.answer]
      show _ = (Query.run _ _).bind _
      rw [synced_database]
      cases ((s.engine.env options.cancelled).evaluate options.context e).run s.database.catalog <;> rfl

/-- A request has a series if what was read from it is worth that series. -/
theorem Trusted.evaluateSeries_iff (trusted : s.Trusted) {text : String} {e : Expr}
    (read : Expr.ofRequest text = .ok e) {options : ReadOptions} {series : Series} :
    (Engine.evaluateSeries text options s).1 = .ok series ↔
      ((s.engine.env options.cancelled).evaluate options.context e).run s.database.catalog =
        .ok (.series series) := by
  rw [trusted.evaluateSeries, read]
  constructor
  · intro evaluated
    obtain ⟨_, same, evaluated⟩ := ok_of_bind evaluated
    cases same
    obtain ⟨v, value, isSeries⟩ := ok_of_bind evaluated
    cases v with
    | series found =>
        cases isSeries
        exact value
    | _ => cases isSeries
  · intro value
    show (Query.run _ _).bind _ = _
    rw [value]
    rfl

/-- What is written out for a stored formula behind a cache that can be trusted. -/
theorem Trusted.expanded (trusted : s.Trusted) {e' : Expr}
    (h : (Engine.expanded name s).1 = .ok (some e')) : ∃ e written,
      s.database.catalog name = .ok (some e) ∧
      e.inlineFormulas.run s.database.catalog = .ok written ∧ e' = written.foldConstants := by
  have asks : (Engine.expanded name s).1 = s.synced.answer _ := rfl
  rw [asks, trusted.synced.answer] at h
  obtain ⟨tree, named, h⟩ := Query.ok_of_run_bind h
  rw [Query.run_formula] at named
  cases tree with
  | none => cases h
  | some e =>
      obtain ⟨written, inlined, h⟩ := Query.ok_of_run_bind h
      cases h
      exact ⟨e, written, named, inlined, rfl⟩

/-- A stored formula is expanded if all formulas that it reads can be written out. -/
theorem Trusted.expanded_ok (trusted : s.Trusted) {e written : Expr}
    (stored : s.database.catalog name = .ok (some e))
    (inlined : e.inlineFormulas.run s.database.catalog = .ok written) :
    (Engine.expanded name s).1 = .ok (some written.foldConstants) := by
  show s.synced.answer ((Query.formula name).bind _) = _
  rw [trusted.synced.answer, Query.run_bind, Query.run_formula, synced_database, stored]
  exact Query.run_bind_ok inlined

/-- The trees of stored formulas were read from their texts. -/
theorem writable_of_catalog {db : Database} {e : Expr} (h : db.catalog name = .ok (some e)) :
    e.Writable := by
  obtain ⟨row, -, text⟩ := Database.row?_of_catalog h
  exact ⟨_, Expr.readable_parse (Expr.ofText_eq_ok_iff.1 text)⟩

/-- Each part of what is written out for a stored formula can be read. -/
theorem Trusted.writable_expanded (trusted : s.Trusted) {e' : Expr}
    (expanded : (Engine.expanded name s).1 = .ok (some e')) : e'.Writable := by
  obtain ⟨e, written, stored, inlined, rfl⟩ := trusted.expanded expanded
  exact Expr.Writable.foldConstants written
    ((writable_of_catalog stored).inlineAt (fun _ _ => writable_of_catalog) inlined)

/-- Behind a cache that can be trusted, the text of an expanded formula has the points of the formula. -/
theorem Trusted.evaluate_expanded (trusted : s.Trusted) (builtin : s.engine.registry = .builtin)
    {e' : Expr} (expanded : (Engine.expanded name s).1 = .ok (some e'))
    (fits : e'.nesting ≤ Expr.maxNesting) (named : Expr.ofRequest name = .ok (.series name))
    {options : ReadOptions}
    (expandable : (s.engine.env options.cancelled).Expandable s.database.catalog name) {series : Series}
    (evaluated : (Engine.evaluateSeries name options s).1 = .ok series) :
    ∃ series', (Engine.evaluateSeries e'.canonical options s).1 = .ok series' ∧
      series'.points = series.points := by
  have writable := trusted.writable_expanded expanded
  obtain ⟨e, written, stored, inlined, rfl⟩ := trusted.expanded expanded
  rw [trusted.evaluateSeries_iff named] at evaluated
  obtain ⟨_, series', same, points, again⟩ :=
    expandable.evaluate builtin rfl stored inlined evaluated
  cases same
  have read : Expr.ofRequest written.foldConstants.canonical = .ok written.foldConstants := by
    obtain ⟨call, tree⟩ := Env.Yields.isCall ⟨.root, "", again⟩
    rw [← Expr.ofText_canonical_of_writable writable fits, tree]
    exact Expr.ofRequest_canonical call
  exact ⟨series', (trusted.evaluateSeries_iff read).2 again, points⟩

end Session

namespace Shared

/-- Two series, of which the second one has no value where the first one has its last. -/
def uneven : Store :=
  (({} : Store).insert "a" { seconds := 10, nanos := 0 }
      [({ seconds := 20, nanos := 0 }, 1), ({ seconds := 30, nanos := 0 }, 2)]).insert "b"
    { seconds := 10, nanos := 0 } [({ seconds := 20, nanos := 0 }, 5)]

/-- To read all instants. -/
def readAll : ReadOptions :=
  { context := { now := { seconds := 60, nanos := 0 } } }

/-- To read the instants from one on. -/
def readLate : ReadOptions :=
  { context := { window := ⟨some { seconds := 15, nanos := 0 }, none⟩, now := { seconds := 60, nanos := 0 } } }

/-- Behind the name of a formula its fill does not count. Written out, it fills where the other series has a
    value only. -/
theorem filled_when_expanded : ∃ c engine e', Reachable .builtin 2 c ∧ engine ∈ c.engines ∧
    (Engine.expanded "f" ⟨engine, c.database⟩).1 = .ok (some e') ∧
    (Engine.evaluateSeries "f" readAll ⟨engine, c.database⟩).1.map Series.points =
      .ok [({ seconds := 20, nanos := 0 }, 6)] ∧
    (Engine.evaluateSeries e'.canonical readAll ⟨engine, c.database⟩).1.map Series.points =
      .ok [({ seconds := 20, nanos := 0 }, 6), ({ seconds := 30, nanos := 0 }, 2)] := by
  have first := (Reachable.start.join (r := .builtin) uneven {}).step 0
    (.register "g" "(series \"b\" #:fill 0)" {})
  have second := first.step 0 (.register "f" "(add (series \"a\") (series \"g\"))" {})
  exact ⟨_, _, .call ⟨"add", [.series "a",
    .call ⟨"series", [.literal (.str "b")], [("fill", .literal (.int 0))]⟩], []⟩, second,
    List.mem_singleton.2 rfl, by decide +kernel, by decide +kernel, by decide +kernel⟩

/-- Behind its name a formula has no points outside of the window. Written out, it keeps the one at the start
    of the period that the window begins in. -/
theorem widened_when_expanded : ∃ c engine e', Reachable .builtin 1 c ∧ engine ∈ c.engines ∧
    (Engine.expanded "f" ⟨engine, c.database⟩).1 = .ok (some e') ∧
    (Engine.evaluateSeries "f" readLate ⟨engine, c.database⟩).1.map Series.points = .ok [] ∧
    (Engine.evaluateSeries e'.canonical readLate ⟨engine, c.database⟩).1.map Series.points =
      .ok [({ seconds := 0, nanos := 0 }, 1.5)] := by
  have first := (Reachable.start.join (r := .builtin) uneven {}).step 0
    (.register "f" "(resample (series \"a\") \"T\")" {})
  exact ⟨_, _, .call ⟨"resample", [.series "a", .literal (.str "T")], []⟩, first,
    List.mem_singleton.2 rfl, by decide +kernel, by decide +kernel, by decide +kernel⟩

end Shared

end SeriesLang
