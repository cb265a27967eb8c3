import SeriesLang.Proofs.Query.Bounds
import SeriesLang.Proofs.Query.Dates
import SeriesLang.Proofs.Store.Staircase

/-! # Replaying revisions

A staircase that is put together from the evaluations at all revision dates has at every instant the value
that the expression had a lag before.
-/

namespace SeriesLang

variable {lag : Lag} {t d : Instant}

namespace Staircase

variable {env : Env} {catalog : Catalog} {context : Context} {e : Expr}

/-- A replay passes over a date whose slice would begin past all time, and adds one slice at any other. -/
theorem replay_cons_ok {rest : List Instant} {s out : Series}
    (h : (replay env context e lag s (d :: rest)).run catalog = .ok out) :
    d.after? lag = none ∧ (replay env context e lag s rest).run catalog = .ok out ∨
    ∃ snapshot, (env.evaluate { context with revision := some d } e).run catalog = .ok (.series snapshot) ∧
      (replay env context e lag (s.insertAll (stairSlice lag d rest.head? snapshot)) rest).run catalog =
        .ok out := by
  cases hlow : d.after? lag with
  | none =>
      simp only [replay, hlow] at h
      exact .inl ⟨rfl, h⟩
  | some low =>
      simp only [replay, hlow] at h
      obtain ⟨v, evaluated, h⟩ := Query.ok_of_run_bind h
      obtain ⟨snapshot, series, h⟩ := Query.ok_of_run_bind h
      rw [Query.run_ofExcept] at series
      cases v with
      | series _ =>
          cases series
          exact .inr ⟨snapshot, evaluated, h⟩
      | _ => cases series

/-- What a replay leaves at an instant. -/
theorem decided_replay (forward : 0 ≤ lag.nanos) (t : Instant) {dates : List Instant}
    (ascending : Index.Ascending dates) (regular : ∀ d ∈ dates, d.Regular) {s out : Series}
    (h : (replay env context e lag s dates).run catalog = .ok out) :
    Decided lag t (fun d value => ∃ snapshot,
      (env.evaluate { context with revision := some d } e).run catalog = .ok (.series snapshot) ∧
        value = snapshot.get? t) dates (s.get? t) (out.get? t) := by
  induction dates generalizing s with
  | nil =>
      simp only [replay, Query.run_done, Except.ok.injEq] at h
      rw [h]
      exact .inl ⟨by simp, rfl⟩
  | cons d rest ih =>
      have others := (List.pairwise_cons.1 ascending).2
      have later : ∀ u ∈ rest, u.Regular := fun u hu => regular u (List.mem_cons_of_mem _ hu)
      rcases replay_cons_ok h with ⟨late, h⟩ | ⟨snapshot, evaluated, h⟩
      · refine (ih others later h).skip ?_
        rintro ⟨low, found, -⟩
        cases late.symm.trans found
      · have slice := ih others later h
        rw [get?_insertSlice] at slice
        exact slice.cons forward ascending regular (fun _ => ⟨snapshot, evaluated, rfl⟩)

/-- What a replay leaves at an instant: of the dates that count there, the last one was evaluated. -/
theorem get?_replay (forward : 0 ≤ lag.nanos) {dates : List Instant}
    (ascending : Index.Ascending dates) (regular : ∀ d ∈ dates, d.Regular) {s out : Series}
    (h : (replay env context e lag s dates).run catalog = .ok out) :
    (∀ d ∈ dates, ¬ Instant.Visible lag t d) ∧ out.get? t = s.get? t ∨
    ∃ d ∈ dates, Instant.Visible lag t d ∧ (∀ d' ∈ dates, Instant.Visible lag t d' → d' ≤ d) ∧
      ∃ snapshot, (env.evaluate { context with revision := some d } e).run catalog =
        .ok (.series snapshot) ∧ out.get? t = (snapshot.get? t).or (s.get? t) := by
  rcases decided_replay forward t ascending regular h with
    none | ⟨d, hd, visible, last, _, ⟨snapshot, evaluated, rfl⟩, same⟩
  · exact .inl none
  · exact .inr ⟨d, hd, visible, last, snapshot, evaluated, same⟩

/-- A staircase replays the revision dates within its bound. -/
theorem naive_ok {out : Series} (h : (naive env context lag e).run catalog = .ok out) :
    ∃ found own, (Dependencies.transitive env.registry env.store e).run catalog = .ok found ∧
      (revisionDates env context e .all).run catalog = .ok (datesWithin env found own .all) ∧
      (replay env context e lag .empty
        (datesWithin env found own (stairBound lag context.window))).run catalog = .ok out := by
  obtain ⟨cut, hcut, h⟩ := Query.ok_of_run_bind h
  obtain ⟨found, own, hfound, checks, hown, rfl⟩ := revisionDates_ok_iff.1 hcut
  exact ⟨found, own, hfound, revisionDates_ok_iff.2 ⟨found, own, hfound, checks, hown, rfl⟩, h⟩

theorem mem_datesWithin_iff {found : Dependencies} {own : List Instant} {bound : Window} :
    d ∈ datesWithin env found own bound ↔
      d ∈ datesWithin env found own .all ∧ bound.contains d = true := by
  have everywhere : Window.all.contains d = true := rfl
  rw [mem_datesWithin, mem_datesWithin, and_iff_left everywhere]

/-- Of an expression without operators that look at the revision of the query, the staircase has at every
    instant the value as it was known a lag before, and nothing where no revision is that old. -/
theorem naive_asKnown (builtin : env.registry = .builtin) (built : env.store.Built)
    (forward : 0 ≤ lag.nanos) (steady : ∀ e', e.Reaches env.registry catalog e' → e'.Steady)
    (regular : ∀ dates, (revisionDates env context e .all).run catalog = .ok dates →
      ∀ d ∈ dates, d.Regular)
    (bounded : ∀ u ∈ context.window.upper, u.Regular) {out : Series}
    (h : (naive env context lag e).run catalog = .ok out) :
    ∃ dates, (revisionDates env context e .all).run catalog = .ok dates ∧
      ∀ t : Instant, t.Regular →
        ((∀ known, t.before? lag = some known → ∀ d ∈ dates, ¬ d ≤ known) → out.get? t = none) ∧
        ∀ known, t.before? lag = some known → (∃ d ∈ dates, d ≤ known) → ∀ s,
          (env.evaluate { context with revision := some known } e).run catalog = .ok (.series s) →
            out.get? t = s.get? t := by
  obtain ⟨found, own, -, hall, h⟩ := naive_ok h
  obtain ⟨covers, settled⟩ := covers_revisionDates builtin steady hall
  have dated := regular _ hall
  refine ⟨_, hall, fun t ht => ?_⟩
  have outcome := get?_replay (t := t) forward (ascending_datesWithin built found own _)
    (fun d hd => dated d (mem_datesWithin_iff.1 hd).1) h
  constructor
  · intro none
    rcases outcome with ⟨-, empty⟩ | ⟨d, hd, visible, -, -⟩
    · exact empty
    · have hd := (mem_datesWithin_iff.1 hd).1
      obtain ⟨known, hknown, hle⟩ := (Instant.visible_iff forward ht (dated d hd)).1 visible
      exact absurd hle (none known hknown d hd)
  · rintro known hknown ⟨d, hd, hle⟩ s evaluated
    have yields : env.Yields catalog env.maxDepth ⟨context.window, some known, context.now⟩ e
        (.series s) := ⟨.root, "", evaluated⟩
    have counts : ∀ d ∈ datesWithin env found own .all, d ≤ known → Instant.Visible lag t d :=
      fun d hd hle => (Instant.visible_iff forward ht (dated d hd)).2 ⟨known, hknown, hle⟩
    -- Behind the window there are no points whatever was known.
    have behind : ∀ {revision s}, (∃ u, context.window.upper = some u ∧ u < t) →
        env.Yields catalog env.maxDepth ⟨context.window, revision, context.now⟩ e (.series s) →
        s.get? t = none := by
      rintro revision s ⟨u, hupper, hlt⟩ yields
      have ends : (⟨context.window, revision, context.now⟩ : Context).window.upper = some u := hupper
      exact (yields.within builtin ends covers.steady).get?_eq_none (fun hle => hle hlt)
    rcases outcome with ⟨hidden, empty⟩ | ⟨last, hlast, visible, latest, snapshot, done, value⟩
    · have outside : ¬ (stairBound lag context.window).contains d = true :=
        fun inside => hidden d (mem_datesWithin_iff.2 ⟨hd, inside⟩) (counts d hd hle)
      rw [empty, behind (behind_of_cut bounded ht hknown hle outside) yields]
      rfl
    · have yields' : env.Yields catalog env.maxDepth ⟨context.window, some last, context.now⟩ e
          (.series snapshot) := ⟨.root, "", done⟩
      have hlast := (mem_datesWithin_iff.1 hlast).1
      obtain ⟨_, same, lastKnown⟩ := (Instant.visible_iff forward ht (dated last hlast)).1 visible
      cases hknown.symm.trans same
      rw [value, show Series.empty.get? t = none from rfl, Option.or_none]
      by_cases later : ∃ d' ∈ datesWithin env found own .all, d' ≤ known ∧ ¬ d' ≤ last
      · obtain ⟨d', hd', hle', beyond⟩ := later
        have outside : ¬ (stairBound lag context.window).contains d' = true :=
          fun inside => beyond (latest d' (mem_datesWithin_iff.2 ⟨hd', inside⟩) (counts d' hd' hle'))
        have end' := behind_of_cut bounded ht hknown hle' outside
        rw [behind end' yields, behind end' yields']
      · have equal := Env.Yields.eq_of_same builtin built settled (fun d' hd' => ?_) covers yields' yields
        · rw [Value.series.inj equal]
        · constructor
          · exact fun hle' => Instant.le_trans hle' lastKnown
          · intro hle'
            by_cases reached : d' ≤ last
            · exact reached
            · exact absurd ⟨d', hd', hle', reached⟩ later

/-- A store with a series of which a value was corrected five seconds after it was recorded. -/
def corrected : Env where
  registry := .builtin
  store :=
    let first : Instant := { seconds := 20, nanos := 0 }
    let second : Instant := { seconds := 30, nanos := 0 }
    (({} : Store).insert "x" { seconds := 10, nanos := 0 } [(first, 1), (second, 2)]).insert "x"
      { seconds := 15, nanos := 0 } [(first, 5)]

/-- A catalog with one formula, which raises that series. -/
def raising : Catalog :=
  fun name => .ok (if name = "f" then some (.call ⟨"+", [.literal (.int 1), .series "x"], []⟩) else none)

/-- The running total of the formula. -/
def total : Expr :=
  .call ⟨"cumsum", [.series "f"], []⟩

theorem reaches_total {e : Expr} (h : total.Reaches corrected.registry raising e) :
    e = total ∨ raising "f" = .ok (some e) := by
  induction h with
  | self => exact .inl rfl
  | @formula e name tree _ reads named ih =>
      have names : name = "f" ∨ name = "x" := by
        rcases ih with rfl | formula
        · have found : corrected.registry.references total = ["f"] := by decide +kernel
          rw [found] at reads
          exact .inl (List.mem_singleton.1 reads)
        · cases formula
          have found : corrected.registry.references
              (.call ⟨"+", [.literal (.int 1), .series "x"], []⟩) = ["x"] := by decide +kernel
          rw [found] at reads
          exact .inr (List.mem_singleton.1 reads)
      rcases names with rfl | rfl
      · exact .inr named
      · cases named

theorem naive_asKnown_corrected :
    let t : Instant := { seconds := 20, nanos := 0 }
    let now : Instant := { seconds := 60, nanos := 0 }
    let known : Instant := { seconds := 15, nanos := 0 }
    ∃ out s, (naive corrected { now } (Lag.ofSeconds 5) total).run raising = .ok out ∧
      (corrected.evaluate { now, revision := some known } total).run raising = .ok (.series s) ∧
      out.get? t = some 6 ∧ out.get? t = s.get? t := by
  intro t now known
  have replayed : ((naive corrected { now } (Lag.ofSeconds 5) total).run raising).toOption.bind
      (fun s => s.get? t) = some 6 := by decide +kernel
  have evaluated : ((corrected.evaluate { now, revision := some known } total).run
      raising).toOption.bind (fun v => v.series?) ≠ none := by decide +kernel
  have dated : ((revisionDates corrected { now } total .all).run raising).toOption =
      some [{ seconds := 10, nanos := 0 }, known] := by decide +kernel
  obtain ⟨out, hout, six⟩ := Option.bind_eq_some_iff.1 replayed
  obtain ⟨s, hs⟩ := Option.ne_none_iff_exists'.1 evaluated
  obtain ⟨v, hv, series⟩ := Option.bind_eq_some_iff.1 hs
  cases Value.eq_of_series? series
  have steady : ∀ e, total.Reaches corrected.registry raising e → e.Steady := by
    intro e h
    rcases reaches_total h with rfl | formula
    · exact (by decide +kernel : ∀ call ∈ total.calls, call.op ≠ "today" ∧ call.op ≠ "asof")
    · cases formula
      exact (by decide +kernel : ∀ call ∈ (Expr.call
        ⟨"+", [.literal (.int 1), .series "x"], []⟩).calls, call.op ≠ "today" ∧ call.op ≠ "asof")
  have regular : ∀ dates, (revisionDates corrected { now } total .all).run raising = .ok dates →
      ∀ d ∈ dates, d.Regular := by
    intro dates h
    cases (toOption_eq_some_iff.1 dated).symm.trans h
    decide
  have builtin : corrected.registry = .builtin := by simp only [corrected]
  have built : corrected.store.Built := (Store.Built.empty.insert _ _ _).insert _ _ _
  obtain ⟨dates, hdates, asKnown⟩ := naive_asKnown builtin built (by decide) steady regular
    (by simp [Window.all]) (toOption_eq_some_iff.1 hout)
  cases (toOption_eq_some_iff.1 dated).symm.trans hdates
  have evaluated := toOption_eq_some_iff.1 hv
  exact ⟨out, s, toOption_eq_some_iff.1 hout, evaluated, six,
    (asKnown t (by decide)).2 known (by decide +kernel) ⟨known, by simp, Instant.le_refl known⟩ s
      evaluated⟩

end Staircase

end SeriesLang
