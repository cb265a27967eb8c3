import SeriesLang.Proofs.Database.Acyclic
import SeriesLang.Proofs.Engine.Runs
import SeriesLang.Proofs.Query.Asked

/-! # Formulas that ask for themselves

A formula that is written does not lead back to itself through the names that it is found to read. An
evaluation asks for more: it looks up the names below a `series` or `constant` application, too, which are
not looked for when the formula is written.
-/

namespace SeriesLang

/-- All names in the `series` applications of an expression are among those that it is found to read. -/
def Registry.FindsAll (r : Registry) (e : Expr) : Prop :=
  ∀ name ∈ e.seriesNames, name ∈ r.references e

instance (r : Registry) (e : Expr) : Decidable (r.FindsAll e) :=
  inferInstanceAs (Decidable (∀ name ∈ _, _))

/-- Formulas whose needs are exact do not lead back to themselves. -/
theorem Database.Sound.acyclic_catalog {r : Registry} {db : Database} (h : db.Sound r) :
    db.catalog.Acyclic r := by
  intro name path
  obtain ⟨_, ⟨e, _, answer, -⟩, -⟩ := Relation.TransGen.head'_iff.1 path
  obtain ⟨row, stored, text⟩ := row?_of_catalog answer
  obtain ⟨tree, read, reads⟩ := h.reads stored
  cases text.symm.trans read
  exact Catalog.not_leads_self reads answer path

namespace Catalog

variable {r : Registry} {catalog : Catalog} {name other : String} {e : Expr}

/-- A name stands in a formula that a formula leads to, or in that one itself. -/
def Meets (r : Registry) (catalog : Catalog) (name other : String) : Prop :=
  ∃ between tree, Relation.ReflTransGen (Leads r catalog) name between ∧
    catalog between = .ok (some tree) ∧ other ∈ tree.seriesNames

/-- Where the names of all formulas are found, a formula leads to all formulas whose names it meets. -/
theorem Meets.leads (h : Meets r catalog name other) (stored : catalog other = .ok (some e))
    (all : ∀ name e, catalog name = .ok (some e) → r.FindsAll e) :
    Relation.TransGen (Leads r catalog) name other := by
  obtain ⟨between, tree, path, answer, mem⟩ := h
  exact .tail' path ⟨tree, e, answer, all between tree answer other mem, stored⟩

theorem closedUnder_meets (all : ∀ name e, catalog name = .ok (some e) → r.FindsAll e) (name : String) :
    Env.ClosedUnder catalog (Meets r catalog name) :=
  fun other tree meets stored _ mem =>
    ⟨other, tree, (meets.leads stored all).to_reflTransGen, stored, mem⟩

/-- Where the names of all formulas are found, none asks for itself. -/
theorem Acyclic.not_asked (h : Acyclic r catalog)
    (all : ∀ name e, catalog name = .ok (some e) → r.FindsAll e)
    (stored : catalog name = .ok (some e)) {env : Env} (builtin : env.registry = .builtin)
    (context : Context) : name ∉ (env.evaluate context e).asked catalog := by
  intro asked
  have meets : Meets r catalog name name :=
    Env.asks_evalAt builtin (closedUnder_meets all name) env.maxDepth context .root "" e
      (fun other mem => ⟨name, e, .refl, stored, mem⟩) name asked
  exact h name (meets.leads stored all)

end Catalog

namespace Workspace

variable {w : Workspace}

/-- In every state of a run no evaluation of a stored formula asks for that formula, at whatever depth,
    as long as all names in the `series` applications of the stored formulas are found. -/
theorem not_asked_again (h : Reachable .builtin w)
    (all : ∀ name e, w.session.database.catalog name = .ok (some e) → Registry.builtin.FindsAll e)
    {name : String} {e : Expr} (stored : w.session.database.catalog name = .ok (some e)) {env : Env}
    (builtin : env.registry = .builtin) (context : Context) :
    name ∉ (env.evaluate context e).asked w.session.database.catalog :=
  h.sound.session.sound.acyclic_catalog.not_asked all stored builtin context

/-- A formula that reads another one twice, once below a shift. -/
theorem not_asked_again_sum : ∃ w e, Reachable .builtin w ∧
    (∀ name e, w.session.database.catalog name = .ok (some e) → Registry.builtin.FindsAll e) ∧
    w.session.database.catalog "sum" = .ok (some e) ∧
    ((w.session.engine.env false).evaluate { now := { seconds := 0, nanos := 0 } } e).asked
      w.session.database.catalog = ["base", "base"] ∧
    "sum" ∉ ((w.session.engine.env false).evaluate { now := { seconds := 0, nanos := 0 } } e).asked
      w.session.database.catalog := by
  obtain ⟨w, reached, rows, builtin, stored, asked⟩ : ∃ w, Reachable .builtin w ∧
      (∀ p ∈ w.session.database.formulas.entries, ∀ e ∈ (Expr.ofText p.2.row.text).toOption,
        Registry.builtin.FindsAll e) ∧
      w.session.engine.registry = .builtin ∧
      w.session.database.catalog "sum" = .ok (some (.call ⟨"add", [.series "base",
        .call ⟨"time-shifted", [.series "base"], [("days", .literal (.int 1))]⟩], []⟩)) ∧
      ((w.session.engine.env false).evaluate { now := { seconds := 0, nanos := 0 } }
        (.call ⟨"add", [.series "base", .call ⟨"time-shifted", [.series "base"],
          [("days", .literal (.int 1))]⟩], []⟩)).asked w.session.database.catalog =
        ["base", "base"] := by
    have first := (Reachable.start {} {} : Reachable .builtin _).step
      (.register "base"
        "(constant 1 (date \"2024-01-01\") (date \"2024-01-02\") \"D\" (date \"2023-12-31\"))" {})
      trivial
    have second := first.step (.register "sum"
      "(add (series \"base\") (time-shifted (series \"base\") #:days 1))" {}) trivial
    exact ⟨_, second, by decide +kernel, second.sound.session.registry, by decide +kernel,
      by decide +kernel⟩
  have all := Database.forall_catalog (P := fun _ e => Registry.builtin.FindsAll e) rows
  exact ⟨w, _, reached, all, stored, asked, not_asked_again reached all stored builtin _⟩

/-- A formula that reads itself in a keyword of `series` is taken, and to evaluate it comes to no end. -/
theorem registered_reading_itself : ∃ w e path, Reachable .builtin w ∧
    w.session.engine.registry = .builtin ∧
    Expr.ofText "(series \"base\" #:fill (series \"self\"))" = .ok e ∧
    w.session.database.catalog "self" = .ok (some e) ∧
    "self" ∈ ((w.session.engine.env false).evaluate { now := { seconds := 0, nanos := 0 } } e).asked
      w.session.database.catalog ∧
    ((w.session.engine.env false).evaluate { now := { seconds := 0, nanos := 0 } } e).run
      w.session.database.catalog = .error (.recursionLimit 4 path) := by
  have first := (Reachable.start {} { maxDepth := 4 } : Reachable .builtin _).step
    (.register "self" "(series \"base\" #:fill (series \"self\"))" { rejectUnknown := false }) trivial
  exact ⟨_, .call ⟨"series", [.literal (.str "base")],
    [("fill", .call ⟨"series", [.literal (.str "self")], []⟩)]⟩,
    ⟨"series/fill/series/self/series/fill/series/self/series"⟩, first, first.sound.session.registry,
    by decide +kernel, by decide +kernel, by decide +kernel, by decide +kernel⟩

/-- Not every stored formula is evaluated without being asked for again. -/
theorem asked_again : ¬ ∀ (w : Workspace) (name : String) (e : Expr) (env : Env) (context : Context),
    Reachable .builtin w → w.session.database.catalog name = .ok (some e) →
    env.registry = .builtin →
    name ∉ (env.evaluate context e).asked w.session.database.catalog := by
  intro never
  obtain ⟨w, e, _, reached, builtin, -, stored, asked, -⟩ := registered_reading_itself
  exact never w "self" e _ _ reached stored builtin asked

end Workspace

end SeriesLang
