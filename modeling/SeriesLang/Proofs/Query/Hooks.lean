import SeriesLang.Proofs.Query.Nesting

/-! # Dates that operators tell of themselves

The revision dates have those that any operator of any registry tells of itself, in the expression and in all
formulas that `series` applications read. A formula that is read by another operator is found like every other
one, but its operators are not asked for dates.
-/

namespace SeriesLang

variable {env : Env} {catalog : Catalog} {context : Context} {e : Expr} {dates : List Instant}

namespace Dependencies

variable {r : Registry} {store : Store} {P : Expr → Prop} {room : Nat} {stack : List String}
  {found out : Dependencies}

/-- A name that is found for expressions of a set is read by one of them, if the set has every formula that
    is read by one. -/
def Originates (r : Registry) (P : Expr → Prop) (found out : Dependencies) : Prop :=
  ∀ name ∈ names out, name ∈ names found ∨ ∃ e, P e ∧ name ∈ r.references e

theorem originates_visit (closed : ∀ e name tree, P e → name ∈ r.references e →
      catalog name = .ok (some tree) → P tree)
    (follow : ∀ stack found e out, P e → (expand r store room stack found e).run catalog = .ok out →
      Originates r P found out)
    {p : String × Dependency} (he : P e) (reads : p.1 ∈ r.references e)
    (h : visit r store catalog room stack found p = .ok out) : Originates r P found out := by
  have put : Originates r P found (Sorted.put p.1 p.2 found) := by
    intro name hname
    rcases mem_names_put.1 hname with rfl | hname
    · exact .inr ⟨e, he, reads⟩
    · exact .inl hname
  obtain ⟨-, h⟩ := ok_of_else h
  split at h
  · obtain ⟨tree, named, h⟩ := ok_of_bind h
    cases tree with
    | none =>
        cases h
        exact put
    | some tree =>
        intro name hname
        rcases follow _ _ tree _ (closed e p.1 tree he reads named) h name hname with hname | origin
        · exact put name hname
        · exact .inr origin
  · cases h
    exact put

theorem originates_visits {read : Dependencies}
    (each : ∀ p ∈ read, ∀ found out, visit r store catalog room stack found p = .ok out →
      Originates r P found out)
    (h : read.foldlM (visit r store catalog room stack) found = .ok out) : Originates r P found out := by
  induction read generalizing found with
  | nil =>
      cases h
      exact fun name hname => .inl hname
  | cons p read ih =>
      rw [List.foldlM_cons] at h
      obtain ⟨middle, first, h⟩ := ok_of_bind h
      intro name hname
      rcases ih (fun q hq => each q (List.mem_cons_of_mem _ hq)) h name hname with hname | origin
      · exact each p List.mem_cons_self _ _ first name hname
      · exact .inr origin

theorem originates_expand (closed : ∀ e name tree, P e → name ∈ r.references e →
      catalog name = .ok (some tree) → P tree) (he : P e)
    (h : (expand r store room stack found e).run catalog = .ok out) : Originates r P found out := by
  induction room generalizing stack found e out with
  | zero => cases h
  | succ room ih =>
      rw [run_expand] at h
      obtain ⟨read, hread, h⟩ := ok_of_bind h
      have inRefs := (stands_direct hread).2.1
      exact originates_visits (fun p hp _ _ => originates_visit closed (fun _ _ _ _ => ih) he (inRefs p hp)) h

end Dependencies

namespace Staircase

theorem OwnWithin.opens (h : OwnWithin env catalog context dates e) {e' : Expr}
    (opens : e.Opens catalog e') : OwnWithin env catalog context dates e' := by
  induction opens with
  | self => exact h
  | formula _ reads named ih =>
      obtain ⟨call, hcall, name⟩ := List.mem_filterMap.1 reads
      exact ih.formula hcall name named

/-- The dates that the operators in an expression tell of themselves are among these. -/
def Told (env : Env) (catalog : Catalog) (context : Context) (dates : List Instant) (e : Expr) : Prop :=
  ∀ call ∈ e.calls, ∃ own, (datesOfCall env context call).run catalog = .ok own ∧ ∀ d ∈ own, d ∈ dates

theorem OwnWithin.told (h : OwnWithin env catalog context dates e) :
    Told env catalog context dates e := by
  obtain ⟨stack, deeper, own, told, inside, -⟩ := h.calls
  intro call hcall
  obtain ⟨dates, answered, within⟩ := (datesOfCalls_ok told hcall).1
  exact ⟨dates, answered, fun d hd => inside d (within d hd)⟩

/-- The revision dates have those that operators tell of themselves in the expression and in all formulas that
    `series` applications read. Where no formula is read by another operator only, these are all formulas
    that are found for the expression. -/
theorem revisionDates_told (h : (revisionDates env context e .all).run catalog = .ok dates) :
    (∀ e', e.Opens catalog e' → Told env catalog context dates e') ∧
    ∃ found, (Dependencies.transitive env.registry env.store e).run catalog = .ok found ∧
      ((∀ e' name tree, e.Opens catalog e' → name ∈ env.registry.references e' →
          catalog name = .ok (some tree) → name ∈ e'.seriesNames) →
        ∀ name ∈ Dependencies.names found, ∀ tree, catalog name = .ok (some tree) →
          Told env catalog context dates tree) := by
  obtain ⟨found, own, hfound, -, hown, rfl⟩ := revisionDates_ok_iff.1 h
  have within : OwnWithin env catalog context (datesWithin env found own .all) e :=
    ⟨_, _, own, hown, fun d hd => mem_datesWithin.2 ⟨.inr hd, rfl⟩⟩
  refine ⟨fun e' opens => (within.opens opens).told, found, hfound, fun shown name hname tree named => ?_⟩
  have closed : ∀ e' name tree, e.Opens catalog e' → name ∈ env.registry.references e' →
      catalog name = .ok (some tree) → e.Opens catalog tree :=
    fun e' name tree opens reads named => opens.formula (shown e' name tree opens reads named) named
  rcases Dependencies.originates_expand closed .self hfound name hname with new | ⟨e', opens, reads⟩
  · cases new
  · exact (within.opens (closed e' name tree opens reads named)).told

/-- An operator of a host program that reads a series by its name. Its finder tells the name, as that of
    `series` does. -/
def fetch : Operator where
  name := "fetch"
  signature := { positional := [{ name := "name", type := .str }] }
  implementation := .values (fun args => do
    let context ← Body.ofExcept args.requireContext
    let name ← Body.ofExcept (args.textAt 0)
    return .series (← Body.series context name))
  wantsContext := true
  finder := some Operator.firstName

/-- A store with one series, and a registry with that operator. -/
def fetching : Env where
  registry := Registry.builtin.override fetch
  store := ({} : Store).insert "x" { seconds := 10, nanos := 0 } [({ seconds := 20, nanos := 0 }, 1)]

/-- A constant that is there from the third of January on. -/
def fixed : Call :=
  ⟨"constant", [.literal (.int 5), .literal (.str "2020-01-01"), .literal (.str "2020-01-06"),
    .literal (.str "D"), .literal (.str "2020-01-03")], []⟩

/-- A catalog with the constant as a formula. -/
def holding : Catalog :=
  fun name => .ok (if name = "c" then some (.call fixed) else none)

/-- Read through the other operator, the formula is found and its operator tells a date, which is not among the
    revision dates. -/
theorem revisionDates_misses_fetched :
    let context : Context := { now := { seconds := 60, nanos := 0 } }
    let e : Expr := .call ⟨"fetch", [.literal (.str "c")], []⟩
    let third : Instant := { seconds := 1578009600, nanos := 0 }
    (Dependencies.transitive fetching.registry fetching.store e).run holding = .ok [("c", .formula)] ∧
      (datesOfCall fetching context fixed).run holding = .ok [third] ∧
      (revisionDates fetching context e .all).run holding = .ok [] ∧
      (revisionDates fetching context (.series "c") .all).run holding = .ok [third] :=
  ⟨toOption_eq_some_iff.1 (by decide +kernel), toOption_eq_some_iff.1 (by decide +kernel),
    toOption_eq_some_iff.1 (by decide +kernel), toOption_eq_some_iff.1 (by decide +kernel)⟩

/-- Read by `series`, the formula has its date among them, with one of a stored series that the other operator
    reads. -/
theorem revisionDates_told_series :
    let context : Context := { now := { seconds := 60, nanos := 0 } }
    let e : Expr := .call ⟨"add", [.series "c", .call ⟨"fetch", [.literal (.str "x")], []⟩], []⟩
    ∃ dates, (revisionDates fetching context e .all).run holding = .ok dates ∧ dates.length = 2 ∧
      Told fetching holding context dates (.call fixed) := by
  intro context e
  have counted : ((revisionDates fetching context e .all).run holding).toOption.map List.length = some 2 := by
    decide +kernel
  obtain ⟨dates, told, two⟩ := Option.map_eq_some_iff.1 counted
  have told := toOption_eq_some_iff.1 told
  obtain ⟨-, found, hfound, formulas⟩ := revisionDates_told told
  have reads : ((Dependencies.transitive fetching.registry fetching.store e).run holding).toOption.map
      Dependencies.names = some ["c", "x"] := by decide +kernel
  rw [toOption_eq_some_iff.2 hfound, Option.map_some, Option.some_inj] at reads
  have formula : ∀ {name tree}, holding name = .ok (some tree) → name = "c" ∧ tree = .call fixed := by
    intro name tree named
    have named := Except.ok.inj named
    split at named
    · rename_i same
      exact ⟨same, (Option.some.inj named).symm⟩
    · cases named
  have shown : ∀ e' name tree, e.Opens holding e' → name ∈ fetching.registry.references e' →
      holding name = .ok (some tree) → name ∈ e'.seriesNames := by
    intro e' name tree opens mentions named
    obtain ⟨rfl, -⟩ := formula named
    cases opens with
    | self => decide +kernel
    | formula _ _ named =>
        obtain ⟨-, rfl⟩ := formula named
        have none : fetching.registry.references (.call fixed) = [] := by decide +kernel
        rw [none] at mentions
        cases mentions
  exact ⟨dates, told, two, formulas shown "c" (by simp [reads]) _ rfl⟩

end Staircase

end SeriesLang
