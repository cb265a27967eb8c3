import SeriesLang.Proofs.Query.Pointwise

/-! # The short route

Of an expression that looks at one instant at a time, one evaluation over the staircases of the stored series
gives the same staircase as the evaluations at all revision dates.
-/

namespace SeriesLang

variable {env : Env} {catalog : Catalog} {context : Context} {lag : Lag} {e : Expr} {t : Instant}

theorem Series.within_ne_iff {s : Series} : s.Within (· ≠ t) ↔ s.get? t = none := by
  constructor
  · exact fun h => h.get?_eq_none (fun apart => apart rfl)
  · rintro absent p hp rfl
    rw [get?_eq_some_iff.2 (show (p.1, p.2) ∈ s.points from hp)] at absent
    cases absent

/-- Where no series that is read has a value, an expression that looks at one instant at a time has none. -/
theorem Env.Yields.absent {levels : Nat} (builtin : env.registry = .builtin) {N : String → Prop}
    (formulas : ∀ name, N name → ∀ tree, catalog name = .ok (some tree) →
      Staircase.Local env.registry N tree)
    (leaves : ∀ name, N name → ∀ s, Sorted.get? name env.leaves = some s → s.get? t = none)
    (stored : ∀ name, N name → Sorted.get? name env.leaves = none → catalog name = .ok none →
      ∀ s, env.store.get? name context.window context.revision = some s → s.get? t = none)
    (covered : Staircase.Local env.registry N e) {s : Series}
    (h : env.Yields catalog levels context e (.series s)) : s.get? t = none := by
  have related := h.pointwise (Series.closed_within (· ≠ t)) builtin builtin formulas ?_ covered h
  · cases related with
    | scalar scalar => cases scalar
    | series absent => exact Series.within_ne_iff.1 absent
  · intro n n' name s s' hname follow fetched fetched' options _
    show s.Within (· ≠ t)
    cases fetched with
    | leaf given => exact (Series.within_ne_iff.2 (leaves name hname _ given)).retain _
    | stored free unnamed found =>
        exact Series.within_ne_iff.2 (stored name hname free unnamed s found)
    | formula free named yields =>
        cases fetched' with
        | leaf given' => cases free.symm.trans given'
        | stored _ unnamed' _ => cases named.symm.trans unnamed'
        | formula _ named' yields' =>
            cases named.symm.trans named'
            exact (follow _ named _ _ yields yields').retain _

namespace Staircase

/-- The staircases of stored series, under their names. -/
def stairs (env : Env) (lag : Lag) (w : Window) (names : List String) : List (String × Series) :=
  (names.map (fun leaf => (env.store.staircase? leaf lag w).map (leaf, ·))).filterMap id

theorem get?_stairs {w : Window} {names : List String} {name : String} :
    Sorted.get? name (stairs env lag w names) =
      if name ∈ names then env.store.staircase? name lag w else none := by
  induction names with
  | nil => rfl
  | cons leaf names ih =>
      have step : stairs env lag w (leaf :: names) =
          ((env.store.staircase? leaf lag w).map (leaf, ·)).toList ++ stairs env lag w names := by
        simp only [stairs, List.map_cons]
        cases env.store.staircase? leaf lag w <;> rfl
      rw [step, Sorted.get?_append, ih]
      by_cases heq : leaf = name
      · subst heq
        cases env.store.staircase? leaf lag w with
        | none => simp [Sorted.get?]
        | some s => simp [Sorted.get?]
      · have other : Sorted.get? name ((env.store.staircase? leaf lag w).map (leaf, ·)).toList =
            none := by
          cases env.store.staircase? leaf lag w <;> simp [Sorted.get?, heq]
        have apart : name ≠ leaf := fun h => heq h.symm
        rw [other, Option.none_or]
        simp [apart]

/-- The environment in which the stored series are replaced by their staircases. -/
def overStairs (env : Env) (lag : Lag) (w : Window) (names : List String) : Env :=
  { env with leaves := stairs env lag w names }

theorem builtin_overStairs (builtin : env.registry = .builtin) (lag : Lag) (w : Window)
    (names : List String) : (overStairs env lag w names).registry = .builtin := builtin

theorem run_leafStaircase (leaf : String) : (leafStaircase env context lag leaf).run catalog =
    (env.checkpoint ⟨leaf⟩).map
      (fun _ => (env.store.staircase? leaf lag context.window).map (leaf, ·)) := by
  show ((Query.ofExcept _).bind _).run catalog = _
  rw [Query.run_bind, Query.run_ofExcept]
  cases env.checkpoint ⟨leaf⟩ <;> rfl

/-- The short route is empty without stored series, and else an evaluation over their staircases. -/
theorem optimized_ok {found : Dependencies}
    (hfound : (Dependencies.transitive env.registry env.store e).run catalog = .ok found)
    {out : Series} (h : (optimized env context lag e).run catalog = .ok out) :
    (found.primaries = [] ∧ out = .empty) ∨
      (overStairs env lag context.window found.primaries).Yields catalog env.maxDepth
        { context with revision := none } e (.series out) := by
  obtain ⟨names, hnames, h⟩ := Query.ok_of_run_bind h
  obtain ⟨_, same, hnames⟩ := Query.ok_of_run_bind hnames
  cases hfound.symm.trans same
  cases hnames
  cases hprimaries : found.primaries with
  | nil =>
      rw [hprimaries] at h
      cases h
      exact .inl ⟨rfl, rfl⟩
  | cons first rest =>
      rw [hprimaries] at h
      obtain ⟨made, hmade, h⟩ := Query.ok_of_run_bind h
      simp only [Query.run_forEach, run_leafStaircase] at hmade
      rw [(mapM_check_ok_iff.1 hmade).2] at h
      obtain ⟨v, evaluated, h⟩ := Query.ok_of_run_bind h
      rw [Query.run_ofExcept] at h
      cases v with
      | series s =>
          cases h
          exact .inr ⟨.root, "", evaluated⟩
      | _ => cases h

theorem replay_absent {dates : List Instant} {s out : Series}
    (h : (replay env context e lag s dates).run catalog = .ok out) (hs : s.get? t = none)
    (absent : ∀ d snapshot, (env.evaluate { context with revision := some d } e).run catalog =
      .ok (.series snapshot) → snapshot.get? t = none) : out.get? t = none := by
  induction dates generalizing s with
  | nil =>
      simp only [replay, Query.run_done, Except.ok.injEq] at h
      rw [← h, hs]
  | cons d rest ih =>
      rcases replay_cons_ok h with ⟨-, h⟩ | ⟨snapshot, evaluated, h⟩
      · exact ih h hs
      · apply ih h
        rw [get?_insertSlice, absent d snapshot evaluated, hs, Option.none_or, ite_self]

theorem unnamed_of_mem_primaries {found : Dependencies}
    (hfound : (Dependencies.transitive env.registry env.store e).run catalog = .ok found)
    {name : String} (hname : name ∈ found.primaries) : catalog name = .ok none := by
  obtain ⟨p, hp, rfl⟩ := List.mem_map.1 hname
  obtain ⟨hp, primary⟩ := List.mem_filter.1 hp
  rcases (Dependencies.expanded_of_ok hfound).stands p hp with old | ⟨tree, answer, kind⟩
  · cases old
  · cases tree with
    | none => exact answer
    | some tree =>
        rw [kind] at primary
        cases primary

/-- The names that an expression reads are covered, as are the formulas among them. -/
theorem local_of_isPointwise (builtin : env.registry = .builtin)
    (h : (isPointwise env.registry e).run catalog = .ok true) :
    Local env.registry (ReadsName env catalog e) e ∧ ∀ name, ReadsName env catalog e name →
      ∀ tree, catalog name = .ok (some tree) → Local env.registry (ReadsName env catalog e) tree := by
  have pointwise : Pointwise env.registry catalog e := ⟨_, _, h⟩
  have reached : ∀ e', e.Reaches env.registry catalog e' →
      Local env.registry (ReadsName env catalog e) e' := fun e' reached =>
    ⟨fun call hcall => (pointwise.reaches builtin reached).call hcall,
      fun name hname => ⟨e', reached, hname⟩⟩
  refine ⟨reached e .self, ?_⟩
  rintro name ⟨e', reaches, hname⟩ tree named
  exact reached tree (reaches.formula hname named)

/-- Outside of what the stored series have in the window, both routes leave nothing. -/
theorem silent (builtin : env.registry = .builtin) (leafless : env.leaves = [])
    (pointwise : (isPointwise env.registry e).run catalog = .ok true) {found : Dependencies}
    (hfound : (Dependencies.transitive env.registry env.store e).run catalog = .ok found)
    (hushed : ∀ name ∈ found.primaries, ∀ s, env.store.find? name = some s →
      ∀ revision?, (s.read context.window revision?).get? t = none)
    {levels : Nat} {revision : Option Instant} {s : Series}
    (h : env.Yields catalog levels { context with revision } e (.series s)) : s.get? t = none := by
  obtain ⟨covered, formulas⟩ := local_of_isPointwise builtin pointwise
  apply h.absent builtin formulas ?_ ?_ covered
  · intro name _ s given
    rw [leafless] at given
    cases given
  · rintro name ⟨e', reached, hname⟩ - unnamed s given
    obtain ⟨stored, found, rfl⟩ := Option.map_eq_some_iff.1 given
    exact hushed name (mem_primaries hfound (reads_of_reaches hfound reached name hname) unnamed found)
      stored found _

/-- A stored series that an expression reads is read through its staircase. -/
theorem get?_stairs_of_reads {found : Dependencies}
    (hfound : (Dependencies.transitive env.registry env.store e).run catalog = .ok found) {name : String}
    (reads : ReadsName env catalog e name) (unnamed : catalog name = .ok none) {stored : StoredSeries}
    (hstored : env.store.find? name = some stored) (w : Window) :
    Sorted.get? name (stairs env lag w found.primaries) =
      some (stored.read w (fun t => (t.before? lag).map some)) := by
  obtain ⟨e', reached, hname⟩ := reads
  have primary := mem_primaries hfound (reads_of_reaches hfound reached name hname) unnamed hstored
  rw [get?_stairs, if_pos primary, Store.staircase?, hstored, Option.map_some]

/-- Where no staircase of a stored series has a value, the short route leaves nothing. -/
theorem short_absent (builtin : env.registry = .builtin)
    (pointwise : (isPointwise env.registry e).run catalog = .ok true) {found : Dependencies}
    (hfound : (Dependencies.transitive env.registry env.store e).run catalog = .ok found)
    (hushed : ∀ name ∈ found.primaries, ∀ s, env.store.find? name = some s →
      (s.read context.window (fun t => (t.before? lag).map some)).get? t = none)
    {out : Series} (h : (optimized env context lag e).run catalog = .ok out) : out.get? t = none := by
  obtain ⟨covered, formulas⟩ := local_of_isPointwise builtin pointwise
  rcases optimized_ok hfound h with ⟨-, rfl⟩ | yields
  · rfl
  · have builtin' := builtin_overStairs builtin lag context.window found.primaries
    apply yields.absent builtin' formulas ?_ ?_ covered
    · intro name _ s given
      rw [overStairs, get?_stairs] at given
      split at given
      · rename_i primary
        obtain ⟨stored, hstored, rfl⟩ := Option.map_eq_some_iff.1 given
        exact hushed name primary stored hstored
      · cases given
    · intro name reads free unnamed s given
      obtain ⟨stored, hstored, -⟩ := Option.map_eq_some_iff.1 given
      cases free.symm.trans (get?_stairs_of_reads hfound reads unnamed hstored context.window)

/-- The value of a stored series at an instant, as it was known a lag before, is the one at the last revision
    that counts there. -/
theorem agreeAt_read {stored : StoredSeries} (dated : stored.Dated) {known last : Instant}
    (hknown : t.before? lag = some known)
    (latest : ∀ d ∈ stored.insertionDates, d ≤ last ↔ d ≤ known) (w : Window) :
    (stored.read w (fun _ => some (some last))).get? t =
      (stored.read w (fun t => (t.before? lag).map some)).get? t := by
  rw [StoredSeries.get?_read, StoredSeries.get?_read, hknown, Option.map_some]
  cases found : Sorted.get? t stored.points with
  | none => rfl
  | some history =>
      have same : history.valueAt? (some last) = history.valueAt? (some known) :=
        History.valueAt?_congr (fun v hv =>
          latest v.1 (dated.versions _ (Sorted.mem_of_get? found) v hv))
      simp only [Option.bind_some, same]

/-- At an instant where the last revision that counts is known, evaluations at this revision and over
    staircases agree. -/
theorem short_agrees (builtin : env.registry = .builtin) (leafless : env.leaves = [])
    (built : env.store.Built) (pointwise : (isPointwise env.registry e).run catalog = .ok true)
    {found : Dependencies}
    (hfound : (Dependencies.transitive env.registry env.store e).run catalog = .ok found)
    {known last : Instant} (hknown : t.before? lag = some known)
    (latest : ∀ name ∈ found.primaries, ∀ stored, env.store.find? name = some stored →
      ∀ d ∈ stored.insertionDates, d ≤ last ↔ d ≤ known)
    {levels levels' : Nat} {s s' : Series}
    (h : env.Yields catalog levels { context with revision := some last } e (.series s))
    (h' : (overStairs env lag context.window found.primaries).Yields catalog levels'
      { context with revision := none } e (.series s')) : s.get? t = s'.get? t := by
  obtain ⟨covered, formulas⟩ := local_of_isPointwise builtin pointwise
  have builtin' := builtin_overStairs builtin lag context.window found.primaries
  have related := h.pointwise (Series.closed_agreeAt t) builtin builtin' formulas ?_ covered h'
  · cases related with
    | scalar scalar => cases scalar
    | series agree => exact agree.value
  · intro n n' name s s' reads follow fetched fetched' options pointwise
    have value : s.get? t = s'.get? t := by
      cases fetched with
      | leaf given =>
          rw [leafless] at given
          cases given
      | stored _ unnamed given =>
          obtain ⟨stored, hstored, rfl⟩ := Option.map_eq_some_iff.1 given
          have stair : Sorted.get? name (overStairs env lag context.window found.primaries).leaves =
              some (stored.read context.window (fun t => (t.before? lag).map some)) :=
            get?_stairs_of_reads hfound reads unnamed hstored context.window
          obtain ⟨e', reached, hname⟩ := reads
          have primary := mem_primaries hfound (reads_of_reaches hfound reached name hname) unnamed
            hstored
          cases fetched' with
          | stored free' _ _ => cases free'.symm.trans stair
          | formula free' _ _ => cases free'.symm.trans stair
          | leaf given' =>
              cases given'.symm.trans stair
              rw [Series.get?_restrict, agreeAt_read (built.dated hstored) hknown
                (latest name primary stored hstored), StoredSeries.get?_read]
              split <;> rfl
      | formula _ named yields =>
          cases fetched' with
          | leaf given' =>
              rw [overStairs, get?_stairs] at given'
              split at given'
              · rename_i primary
                cases named.symm.trans (unnamed_of_mem_primaries hfound primary)
              · cases given'
          | stored _ unnamed' _ => cases named.symm.trans unnamed'
          | formula _ named' yields' =>
              cases named.symm.trans named'
              rw [Series.get?_restrict, Series.get?_restrict, (follow _ named _ _ yields yields').value]
    exact ⟨rfl, pointwise, value⟩

/-- Both routes lead to the same points. -/
theorem optimized_eq_naive (builtin : env.registry = .builtin) (leafless : env.leaves = [])
    (built : env.store.Built) (forward : 0 ≤ lag.nanos)
    (pointwise : (isPointwise env.registry e).run catalog = .ok true)
    (regular : ∀ dates, (revisionDates env context e .all).run catalog = .ok dates →
      ∀ d ∈ dates, d.Regular)
    (values : ∀ name s, env.store.find? name = some s → ∀ p ∈ s.points, p.1.Regular)
    (bounded : ∀ u ∈ context.window.upper, u.Regular) {a b : Series}
    (hnaive : (naive env context lag e).run catalog = .ok a)
    (hoptimized : (optimized env context lag e).run catalog = .ok b) : a.points = b.points := by
  obtain ⟨found, own, hfound, hall, hreplay⟩ := naive_ok hnaive
  have dated := regular _ hall
  have leaf : ∀ name ∈ found.primaries, ∀ s, env.store.find? name = some s →
      ∀ d ∈ s.insertionDates, d ∈ datesWithin env found own .all :=
    fun name hname s hs d hd => mem_datesWithin.2 ⟨.inl ⟨name, hname, s, hs, hd⟩, rfl⟩
  apply Series.points_ext
  intro t
  have quiet : (∀ name ∈ found.primaries, ∀ s, env.store.find? name = some s →
      ∀ revision?, (s.read context.window revision?).get? t = none) → a.get? t = b.get? t := by
    intro hushed
    rw [replay_absent hreplay rfl (fun d snapshot evaluated =>
        silent builtin leafless pointwise hfound hushed ⟨.root, "", evaluated⟩),
      short_absent builtin pointwise hfound (fun name hname s hs => hushed name hname s hs _) hoptimized]
  by_cases inside : context.window.contains t = true ∧ t.Regular
  · obtain ⟨inside, ht⟩ := inside
    have counts : ∀ {known}, t.before? lag = some known → ∀ d ∈ datesWithin env found own .all,
        d ≤ known → d ∈ datesWithin env found own (stairBound lag context.window) ∧
          Instant.Visible lag t d := by
      intro known hknown d hd hle
      refine ⟨mem_datesWithin_iff.2 ⟨hd, ?_⟩,
        (Instant.visible_iff forward ht (dated d hd)).2 ⟨known, hknown, hle⟩⟩
      by_contra cut
      obtain ⟨u, hupper, hlt⟩ := behind_of_cut bounded ht hknown hle cut
      exact Window.le_of_contains hupper inside hlt
    rcases get?_replay (t := t) forward (ascending_datesWithin built found own _)
        (fun d hd => dated d (mem_datesWithin_iff.1 hd).1) hreplay with
      ⟨hidden, empty⟩ | ⟨last, hlast, visible, latest, snapshot, done, value⟩
    · rw [empty, short_absent builtin pointwise hfound ?_ hoptimized]
      · rfl
      · intro name hname s hs
        rw [StoredSeries.get?_read, if_pos inside]
        cases hknown : t.before? lag with
        | none => simp
        | some known =>
            cases hpoint : Sorted.get? t s.points with
            | none => rfl
            | some history =>
                have early : ∀ v ∈ history.versions, ¬ v.1 ≤ known := by
                  intro v hv hle
                  have hd := leaf name hname s hs v.1
                    ((built.dated hs).versions _ (Sorted.mem_of_get? hpoint) v hv)
                  obtain ⟨hcut, visible⟩ := counts hknown v.1 hd hle
                  exact hidden v.1 hcut visible
                simp only [Option.map_some, Option.bind_some, History.valueAt?_early early]
                rfl
    · rw [value, show Series.empty.get? t = none from rfl, Option.or_none]
      have hlast := (mem_datesWithin_iff.1 hlast).1
      obtain ⟨known, hknown, lastKnown⟩ := (Instant.visible_iff forward ht (dated last hlast)).1 visible
      rcases optimized_ok hfound hoptimized with ⟨nothing, rfl⟩ | yields
      · have absent := quiet (fun name hname => by
          rw [nothing] at hname
          cases hname)
        rw [value, show Series.empty.get? t = none from rfl, Option.or_none] at absent
        exact absent
      · apply short_agrees builtin leafless built pointwise hfound hknown ?_ ⟨.root, "", done⟩ yields
        intro name hname stored hstored d hd
        constructor
        · exact fun hle => Instant.le_trans hle lastKnown
        · intro hle
          obtain ⟨hcut, seen⟩ := counts hknown d (leaf name hname stored hstored d hd) hle
          exact latest d hcut seen
  · apply quiet
    intro name hname s hs revision?
    rw [StoredSeries.get?_read]
    split
    · rename_i contained
      have absent : Sorted.get? t s.points = none := by
        rw [Sorted.get?_eq_none_iff]
        rintro p hp rfl
        exact inside ⟨contained, values name s hs p hp⟩
      rw [absent]
      rfl
    · rfl

/-- A series and the formula over it, added up. -/
def added : Expr :=
  .call ⟨"add", [.series "x", .series "f"], []⟩

theorem optimized_eq_naive_corrected :
    let t : Instant := { seconds := 20, nanos := 0 }
    let now : Instant := { seconds := 60, nanos := 0 }
    (isPointwise corrected.registry added).run raising = .ok true ∧
      ∃ a b, (naive corrected { now } (Lag.ofSeconds 5) added).run raising = .ok a ∧
        (optimized corrected { now } (Lag.ofSeconds 5) added).run raising = .ok b ∧
        a.points = b.points ∧ a.get? t = some 11 := by
  intro t now
  have pointwise : ((isPointwise corrected.registry added).run raising).toOption = some true := by
    decide +kernel
  have replayed : ((naive corrected { now } (Lag.ofSeconds 5) added).run raising).toOption.bind
      (fun s => s.get? t) = some 11 := by decide +kernel
  have evaluated : ((optimized corrected { now } (Lag.ofSeconds 5) added).run raising).toOption.bind
      (fun s => s.get? t) = some 11 := by decide +kernel
  have dated : ((revisionDates corrected { now } added .all).run raising).toOption =
      some [{ seconds := 10, nanos := 0 }, { seconds := 15, nanos := 0 }] := by decide +kernel
  obtain ⟨a, ha, value⟩ := Option.bind_eq_some_iff.1 replayed
  obtain ⟨b, hb, -⟩ := Option.bind_eq_some_iff.1 evaluated
  have regular : ∀ dates, (revisionDates corrected { now } added .all).run raising = .ok dates →
      ∀ d ∈ dates, d.Regular := by
    intro dates h
    cases (toOption_eq_some_iff.1 dated).symm.trans h
    decide
  have values : ∀ name s, corrected.store.find? name = some s → ∀ p ∈ s.points, p.1.Regular := by
    intro name s hs
    have stored : ∀ entry ∈ corrected.store.entries, ∀ p ∈ entry.2.points, p.1.Regular := by
      decide +kernel
    exact stored _ (Sorted.mem_of_get? hs)
  have builtin : corrected.registry = .builtin := by simp only [corrected]
  have built : corrected.store.Built := (Store.Built.empty.insert _ _ _).insert _ _ _
  exact ⟨toOption_eq_some_iff.1 pointwise, a, b, toOption_eq_some_iff.1 ha, toOption_eq_some_iff.1 hb,
    optimized_eq_naive builtin (by simp only [corrected]) built (by decide)
      (toOption_eq_some_iff.1 pointwise) regular values (by simp [Window.all])
      (toOption_eq_some_iff.1 ha) (toOption_eq_some_iff.1 hb), value⟩

end Staircase

end SeriesLang
