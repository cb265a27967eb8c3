import SeriesLang.Proofs.Query.Windowed
import SeriesLang.Proofs.Time.Reach

/-! # Generated points

`constant` goes from point to point of a grid. It begins at the first one that is asked for and ends behind the
last one, so its points are those of the grid in the horizon and in the window, whatever the window cuts off,
unless there are too many of them.
-/

namespace SeriesLang

/-- All points of a grid that are asked for, in order. -/
structure Frequency.Lists (f : Frequency) (asked : Instant → Prop) (grid : List Instant) : Prop where
  ascending : grid.Pairwise (· < ·)
  mem : ∀ t, t ∈ grid ↔ f.OnGrid t ∧ asked t

namespace Frequency

variable {f : Frequency} {asked asked' : Instant → Prop} {grid : List Instant} {t a b first last : Instant}
  {k : Int} {n : Nat}

theorem Lists.congr (h : f.Lists asked grid) (same : ∀ t, asked t ↔ asked' t) : f.Lists asked' grid :=
  ⟨h.ascending, fun t => by rw [h.mem, same]⟩

/-- The first point that is asked for is the head of the list, and behind it are those after it. -/
theorem Lists.split (h : f.Lists asked grid) (on : f.OnGrid t) (ask : asked t)
    (least : ∀ g, f.OnGrid g → asked g → t ≤ g) :
    ∃ rest, grid = t :: rest ∧ f.Lists (fun g => t < g ∧ asked g) rest := by
  obtain ⟨ascending, mem⟩ := h
  cases grid with
  | nil => exact absurd ((mem t).2 ⟨on, ask⟩) List.not_mem_nil
  | cons head rest =>
      obtain ⟨later, sorted⟩ := List.pairwise_cons.1 ascending
      have head_least : head ≤ t := by
        rcases List.mem_cons.1 ((mem t).2 ⟨on, ask⟩) with rfl | behind
        · exact Instant.le_refl t
        · exact Instant.le_of_lt (later t behind)
      obtain ⟨there, asked⟩ := (mem head).1 List.mem_cons_self
      cases Instant.le_antisymm head_least (least head there asked)
      refine ⟨rest, rfl, sorted, fun g => ?_⟩
      constructor
      · intro hg
        obtain ⟨on, ask⟩ := (mem g).1 (List.mem_cons_of_mem _ hg)
        exact ⟨on, later g hg, ask⟩
      · rintro ⟨on, after, ask⟩
        rcases List.mem_cons.1 ((mem g).2 ⟨on, ask⟩) with rfl | hg
        · exact absurd after (Instant.lt_irrefl g)
        · exact hg

theorem Lists.eq_nil (h : f.Lists asked grid) (none : ∀ g, f.OnGrid g → ¬ asked g) : grid = [] := by
  refine List.eq_nil_iff_forall_not_mem.2 fun g hg => ?_
  obtain ⟨on, ask⟩ := (h.mem g).1 hg
  exact none g on ask

/-- So many points of a grid from a number on, those out of range left out. -/
def pointsFrom (f : Frequency) (k : Int) (n : Nat) : List Instant :=
  (List.range n).filterMap fun (i : Nat) => Instant.ofSeconds? (f.point (k + i)) 0

theorem mem_pointsFrom : t ∈ f.pointsFrom k n ↔ ∃ l, f.IsPoint l t ∧ k ≤ l ∧ l < k + n := by
  unfold pointsFrom
  rw [List.mem_filterMap]
  constructor
  · rintro ⟨i, hi, made⟩
    obtain ⟨seconds, nanos⟩ := Instant.ofSeconds?_eq_some_iff.1 made
    rw [List.mem_range] at hi
    exact ⟨k + i, ⟨nanos, seconds⟩, by omega, by omega⟩
  · rintro ⟨l, hl, least, greatest⟩
    refine ⟨(l - k).toNat, List.mem_range.2 (by omega), ?_⟩
    rw [show k + ((l - k).toNat : Int) = l by omega]
    exact Instant.ofSeconds?_eq_some_iff.2 ⟨hl.seconds, hl.nanos⟩

theorem ascending_pointsFrom (fits : f.Fits) (k : Int) (n : Nat) : (f.pointsFrom k n).Pairwise (· < ·) := by
  refine List.Pairwise.filterMap _ ?_ List.pairwise_lt_range
  intro i j earlier t ht u hu
  obtain ⟨seconds, nanos⟩ := Instant.ofSeconds?_eq_some_iff.1 ht
  obtain ⟨seconds', nanos'⟩ := Instant.ofSeconds?_eq_some_iff.1 hu
  have here : f.IsPoint (k + i) t := ⟨nanos, seconds⟩
  have there : f.IsPoint (k + j) u := ⟨nanos', seconds'⟩
  rw [there.lt_iff fits, here.index fits]
  omega

/-- Between two instants there are finitely many points. -/
theorem exists_lists (fits : f.Fits) (first last : Instant) :
    ∃ grid, f.Lists (fun t => first ≤ t ∧ t ≤ last) grid := by
  let points := f.pointsFrom (f.index first.seconds) (f.index last.seconds + 1 - f.index first.seconds).toNat
  refine ⟨points.filter fun t => decide (first ≤ t ∧ t ≤ last),
    (ascending_pointsFrom fits _ _).sublist List.filter_sublist, fun t => ?_⟩
  rw [List.mem_filter, decide_eq_true_eq, mem_pointsFrom]
  constructor
  · rintro ⟨⟨l, hl, -⟩, inside⟩
    exact ⟨onGrid_iff.2 ⟨l, hl⟩, inside⟩
  · rintro ⟨on, inside⟩
    obtain ⟨l, hl⟩ := onGrid_iff.1 on
    have low := index_le fits inside.1
    have high := index_le fits inside.2
    rw [hl.index fits] at low high
    exact ⟨⟨l, hl, low, by omega⟩, inside⟩

end Frequency

theorem Instant.max_le_iff {a b t : Instant} : max a b ≤ t ↔ a ≤ t ∧ b ≤ t := by
  show (if a ≤ b then b else a) ≤ t ↔ _
  split
  · rename_i le
    exact ⟨fun h => ⟨le_trans le h, h⟩, And.right⟩
  · rename_i greater
    exact ⟨fun h => ⟨h, le_trans (le_of_lt (lt_of_not_le greater)) h⟩, And.left⟩

theorem Instant.le_min_iff {a b t : Instant} : t ≤ min a b ↔ t ≤ a ∧ t ≤ b := by
  show t ≤ (if a ≤ b then a else b) ↔ _
  split
  · rename_i le
    exact ⟨fun h => ⟨h, le_trans h le⟩, And.left⟩
  · rename_i greater
    exact ⟨fun h => ⟨le_trans h (le_of_lt (lt_of_not_le greater)), h⟩, And.right⟩

/-- The instant lies in the horizon and in the window. -/
def AskedFor (lower upper : Instant) (w : Window) (t : Instant) : Prop :=
  (lower ≤ t ∧ t ≤ upper) ∧ w.contains t = true

/-- What a window leaves of a horizon lies between two instants. -/
theorem Window.exists_between (lower upper : Instant) (w : Window) : ∃ first last,
    (between lower upper).intersect w = between first last ∧ lower ≤ first ∧
      ∀ t, AskedFor lower upper w t ↔ first ≤ t ∧ t ≤ last := by
  have lowest : ∃ first, tighter max (some lower) w.lower = some first ∧
      ∀ t, first ≤ t ↔ lower ≤ t ∧ ∀ l ∈ w.lower, l ≤ t := by
    cases w.lower with
    | none => exact ⟨lower, rfl, fun t => by simp⟩
    | some l => exact ⟨max lower l, rfl, fun t => by simp [Instant.max_le_iff]⟩
  have highest : ∃ last, tighter min (some upper) w.upper = some last ∧
      ∀ t, t ≤ last ↔ t ≤ upper ∧ ∀ l ∈ w.upper, t ≤ l := by
    cases w.upper with
    | none => exact ⟨upper, rfl, fun t => by simp⟩
    | some l => exact ⟨min upper l, rfl, fun t => by simp [Instant.le_min_iff]⟩
  obtain ⟨first, low, from_first⟩ := lowest
  obtain ⟨last, high, to_last⟩ := highest
  refine ⟨first, last, ?_, ((from_first first).1 (Instant.le_refl first)).1, fun t => ?_⟩
  · rw [intersect, between, low, high, between]
  · rw [AskedFor, from_first, to_last, contains_iff, and_and_and_comm]

/-- A number at every instant of a list. -/
theorem Series.get?_ofPoints_const {grid : List Instant} (ascending : grid.Pairwise (· < ·)) {x : Float}
    (number : x.isNaN = false) (t : Instant) :
    (ofPoints (grid.map (·, x))).get? t = if t ∈ grid then some x else none := by
  have sorted : Sorted.Ascending (grid.map (·, x)) := List.pairwise_map.2 ascending
  have looked : Sorted.get? t (grid.map (·, x)) = if t ∈ grid then some x else none := by
    split
    · rename_i there
      exact Sorted.get?_of_mem sorted (List.mem_map.2 ⟨t, there, rfl⟩)
    · rename_i absent
      rw [Sorted.get?_eq_none_iff]
      rintro p hp rfl
      obtain ⟨u, hu, rfl⟩ := List.mem_map.1 hp
      exact absent hu
  rw [get?_ofPoints sorted, looked]
  split
  · exact defined?_eq_some_iff.2 ⟨rfl, number⟩
  · rfl

namespace Operator

variable {f : Frequency} {first last lower upper revision : Instant} {grid : List Instant} {args : Arguments}
  {context : Context} {x : Float}

/-- From the first point that passes a test the loop goes through all of them up to the end, as far as the fuel
    lasts, and tells whether there are more. -/
theorem gridFrom_eq (fits : f.Fits) {P : Instant → Prop} (up : ∀ a b, P a → a ≤ b → P b) {start : Option Instant}
    (begins : f.First P start) (lists : f.Lists (fun t => P t ∧ t ≤ last) grid) (fuel : Nat)
    (seen : List Instant) :
    gridFrom f last fuel start seen = .ok ((grid.take fuel).reverse ++ seen, decide (fuel < grid.length)) := by
  induction fuel generalizing P start grid seen with
  | zero =>
      cases start with
      | none =>
          cases lists.eq_nil fun g on ask => begins g on ask.1
          rfl
      | some t =>
          obtain ⟨on, passes, least⟩ := begins
          -- Some point is left exactly if the next one is not behind the end.
          have more : t ≤ last ↔ 0 < grid.length := by
            rw [List.length_pos_iff_exists_mem]
            constructor
            · exact fun le => ⟨t, (lists.mem t).2 ⟨on, passes, le⟩⟩
            · rintro ⟨g, hg⟩
              obtain ⟨there, ask, le⟩ := (lists.mem g).1 hg
              exact Instant.le_trans (least g there ask) le
          simp only [gridFrom, more, List.take_zero, List.reverse_nil, List.nil_append]
  | succ fuel ih =>
      cases start with
      | none =>
          cases lists.eq_nil fun g on ask => begins g on ask.1
          rfl
      | some t =>
          obtain ⟨on, passes, least⟩ := begins
          by_cases le : t ≤ last
          · obtain ⟨rest, rfl, behind⟩ := lists.split on ⟨passes, le⟩ fun g hg ask => least g hg ask.1
            obtain ⟨u, reached, next⟩ := Frequency.next_first fits on
            have remaining : f.Lists (fun g => t < g ∧ g ≤ last) rest := behind.congr fun g =>
              ⟨fun ask => ⟨ask.1, ask.2.2⟩, fun ask => ⟨ask.1, up t g passes (Instant.le_of_lt ask.1), ask.2⟩⟩
            have after : ∀ a b, t < a → a ≤ b → t < b := fun a b lt le =>
              Instant.lt_of_not_le fun back => Instant.le_trans le back lt
            rw [gridFrom, if_pos le, reached]
            simp only [ih after next remaining, List.take_succ_cons, List.reverse_cons, List.append_assoc,
              List.cons_append, List.nil_append, List.length_cons, Nat.succ_lt_succ_iff]
          · have empty : grid = [] := lists.eq_nil fun g hg ask =>
              le (Instant.le_trans (least g hg ask.1) ask.2)
            rw [gridFrom, if_neg le, empty]
            rfl

theorem gridBetween_eq (fits : f.Fits) (behind : ∃ b, f.OnGrid b ∧ b ≤ first)
    (lists : f.Lists (fun t => first ≤ t ∧ t ≤ last) grid) :
    gridBetween f first last =
      .ok (grid.take Limits.generatedPoints, decide (Limits.generatedPoints < grid.length)) := by
  obtain ⟨b, on, le⟩ := behind
  obtain ⟨start, reached, begins⟩ := Frequency.ceil_first fits on le
  have up : ∀ a b, first ≤ a → a ≤ b → first ≤ b := fun a b => Instant.le_trans
  show Except.bind (f.ceil first) _ = _
  rw [reached]
  show Except.bind (gridFrom f last Limits.generatedPoints start []) _ = _
  rw [gridFrom_eq fits up begins lists, List.append_nil]
  simp only [Except.bind, List.reverse_reverse]
  rfl

/-- A number, a horizon, the name of a frequency and a revision date are given to `constant`. -/
structure Requested (args : Arguments) (x : Float) (f : Frequency) (lower upper revision : Instant) : Prop where
  number : args.numberAt 0 = .ok x
  first : args.instantAt 1 = .ok lower
  last : args.instantAt 2 = .ok upper
  frequency : ∃ text, args.textAt 3 = .ok text ∧ Frequency.ofText? text = some f
  given : args.instantAt 4 = .ok revision

theorem Requested.early (h : Requested args x f lower upper revision) (context : Context)
    (early : context.revision.any (fun r => decide (r < revision)) = true) :
    makeConstant { args with context := some context } = .ok (.series .empty) := by
  obtain ⟨number, -, -, -, given⟩ := h
  show Except.bind (args.numberAt 0) _ = _
  rw [number]
  show Except.bind (args.instantAt 4) _ = _
  rw [given]
  exact if_pos early

theorem Requested.late (h : Requested args x f lower upper revision) (fits : f.Fits)
    (behind : ∃ b, f.OnGrid b ∧ b ≤ lower) (context : Context)
    (late : context.revision.any (fun r => decide (r < revision)) = false)
    (lists : f.Lists (AskedFor lower upper context.window) grid) :
    makeConstant { args with context := some context } =
      if (decide (Limits.generatedPoints < grid.length) && !x.isNaN) = true then
        .error (args.failure "more than 1000000 points requested")
      else .ok (.series (.ofPoints ((grid.take Limits.generatedPoints).map (·, x)))) := by
  obtain ⟨number, start, stop, ⟨text, frequency, known⟩, given⟩ := h
  obtain ⟨first, last, horizon, later, inside⟩ := Window.exists_between lower upper context.window
  have enough : ∃ b, f.OnGrid b ∧ b ≤ first := by
    obtain ⟨b, on, le⟩ := behind
    exact ⟨b, on, Instant.le_trans le later⟩
  have generated := gridBetween_eq fits enough (lists.congr inside)
  show Except.bind (args.numberAt 0) _ = _
  rw [number]
  show Except.bind (args.instantAt 4) _ = _
  rw [given]
  show (if context.revision.any (fun r => decide (r < revision)) = true then _ else _) = _
  rw [if_neg (Bool.eq_false_iff.1 late)]
  show Except.bind (args.textAt 3) _ = _
  rw [frequency]
  simp only [Except.bind, known]
  show Except.bind (args.instantAt 1) _ = _
  rw [start]
  show Except.bind (args.instantAt 2) _ = _
  rw [stop]
  simp only [Except.bind, horizon]
  show Except.bind (orAbort (gridBetween f first last)) _ = _
  rw [generated]
  rfl

theorem exists_askedFor (fits : f.Fits) (lower upper : Instant) (w : Window) :
    ∃ grid, f.Lists (AskedFor lower upper w) grid := by
  obtain ⟨first, last, -, -, inside⟩ := Window.exists_between lower upper w
  obtain ⟨grid, lists⟩ := Frequency.exists_lists fits first last
  exact ⟨grid, lists.congr fun t => (inside t).symm⟩

theorem Requested.enough (h : Requested args x f lower upper revision) (fits : f.Fits)
    (behind : ∃ b, f.OnGrid b ∧ b ≤ lower) (context : Context)
    (late : context.revision.any (fun r => decide (r < revision)) = false)
    (lists : f.Lists (AskedFor lower upper context.window) grid)
    (few : grid.length ≤ Limits.generatedPoints) :
    makeConstant { args with context := some context } = .ok (.series (.ofPoints (grid.map (·, x)))) := by
  rw [h.late fits behind context late lists, List.take_of_length_le few, if_neg]
  rw [decide_eq_false (Nat.not_lt.2 few)]
  exact Bool.false_ne_true

theorem Requested.tooMany (h : Requested args x f lower upper revision) (number : x.isNaN = false)
    (fits : f.Fits) (behind : ∃ b, f.OnGrid b ∧ b ≤ lower) (context : Context)
    (late : context.revision.any (fun r => decide (r < revision)) = false)
    (lists : f.Lists (AskedFor lower upper context.window) grid)
    (many : Limits.generatedPoints < grid.length) :
    makeConstant { args with context := some context } =
      .error (args.failure "more than 1000000 points requested") := by
  rw [h.late fits behind context late lists, if_pos]
  rw [decide_eq_true many, number]
  rfl

/-- A narrower window leaves those points of a wider one that lie in it. -/
theorem Requested.narrowed (h : Requested args x f lower upper revision) (number : x.isNaN = false)
    (fits : f.Fits) (behind : ∃ b, f.OnGrid b ∧ b ≤ lower) {wide : Window}
    (narrower : ∀ t, context.window.contains t = true → wide.contains t = true) {s : Series}
    (made : makeConstant { args with context := some { context with window := wide } } = .ok (.series s)) :
    makeConstant { args with context := some context } = .ok (.series (s.restrict context.window)) := by
  let wider : Context := { context with window := wide }
  cases late : context.revision.any (fun r => decide (r < revision)) with
  | true =>
      cases made.symm.trans (h.early wider late)
      exact h.early context late
  | false =>
      obtain ⟨grid, lists⟩ := exists_askedFor fits lower upper wide
      have few : grid.length ≤ Limits.generatedPoints := by
        refine Nat.le_of_not_lt fun many => ?_
        cases made.symm.trans (h.tooMany number fits behind wider late lists many)
      cases made.symm.trans (h.enough fits behind wider late lists few)
      have left : f.Lists (AskedFor lower upper context.window)
          (grid.filter fun t => context.window.contains t) := by
        refine ⟨lists.ascending.sublist List.filter_sublist, fun t => ?_⟩
        rw [List.mem_filter, lists.mem]
        exact ⟨fun ⟨⟨on, ask, _⟩, inside⟩ => ⟨on, ask, inside⟩,
          fun ⟨on, ask, inside⟩ => ⟨⟨on, ask, narrower t inside⟩, inside⟩⟩
      rw [h.enough fits behind context late left (Nat.le_trans (List.length_filter_le _ _) few)]
      refine congrArg (Except.ok ∘ Value.series) (Series.ext_get? ?_ fun t => ?_)
      · rw [Series.options_ofPoints]
        exact (Series.options_ofPoints _).symm
      · rw [Series.get?_restrict, Series.get?_ofPoints_const left.ascending number,
          Series.get?_ofPoints_const lists.ascending number]
        simp only [List.mem_filter]
        cases context.window.contains t <;> simp

/-- Before its revision date `constant` has no points. From then on it has its number at all points of the grid
    in the horizon and in the window, and fails if there are too many of them. -/
theorem constant_enumerates (h : Requested args x f lower upper revision) (number : x.isNaN = false)
    (fits : f.Fits) (behind : ∃ b, f.OnGrid b ∧ b ≤ lower) (context : Context) :
    ((∃ r, context.revision = some r ∧ r < revision) →
      makeConstant { args with context := some context } = .ok (.series .empty)) ∧
    ((∀ r, context.revision = some r → revision ≤ r) →
      ∃ grid, f.Lists (AskedFor lower upper context.window) grid ∧
        (grid.length ≤ Limits.generatedPoints →
          ∃ s, makeConstant { args with context := some context } = .ok (.series s) ∧
            ∀ t, s.get? t = if t ∈ grid then some x else none) ∧
        (Limits.generatedPoints < grid.length →
          makeConstant { args with context := some context } =
            .error (args.failure "more than 1000000 points requested"))) ∧
    ∀ wide s, (∀ t, context.window.contains t = true → wide.contains t = true) →
      makeConstant { args with context := some { context with window := wide } } = .ok (.series s) →
        makeConstant { args with context := some context } = .ok (.series (s.restrict context.window)) := by
  refine ⟨?_, fun visible => ?_, fun wide s narrower made => h.narrowed number fits behind narrower made⟩
  · rintro ⟨r, set, before⟩
    exact h.early context (by rw [set]; exact decide_eq_true before)
  · have late : context.revision.any (fun r => decide (r < revision)) = false := by
      cases set : context.revision with
      | none => rfl
      | some r => exact decide_eq_false (visible r set)
    obtain ⟨grid, lists⟩ := exists_askedFor fits lower upper context.window
    refine ⟨grid, lists, fun few => ?_, fun many => h.tooMany number fits behind context late lists many⟩
    exact ⟨_, h.enough fits behind context late lists few, Series.get?_ofPoints_const lists.ascending number⟩

/-- A number on each of three days, visible from the first of them on. -/
def daily : Arguments :=
  { op := "constant"
    path := .root
    positional := [.float 1.5, .timestamp { seconds := 0, nanos := 0 },
      .timestamp { seconds := 200000, nanos := 0 }, .str "D", .timestamp { seconds := 50000, nanos := 0 }]
    keywords := []
    context := none }

theorem constant_enumerates_daily :
    let last : Context := { window := .all, revision := none, now := { seconds := 0, nanos := 0 } }
    let old : Context := { last with revision := some { seconds := 40000, nanos := 0 } }
    makeConstant { daily with context := some old } = .ok (.series .empty) ∧
      ∃ grid, (Frequency.days 1).Lists
        (AskedFor { seconds := 0, nanos := 0 } { seconds := 200000, nanos := 0 } .all) grid ∧
          { seconds := 86400, nanos := 0 } ∈ grid ∧ (grid.length ≤ Limits.generatedPoints →
            ∃ s, makeConstant { daily with context := some last } = .ok (.series s) ∧
              s.get? { seconds := 86400, nanos := 0 } = some 1.5) := by
  intro last old
  have requested : Requested daily 1.5 (.days 1) { seconds := 0, nanos := 0 } { seconds := 200000, nanos := 0 }
      { seconds := 50000, nanos := 0 } := ⟨rfl, rfl, rfl, ⟨"D", rfl, by decide +kernel⟩, rfl⟩
  have fits : (Frequency.days 1).Fits := by
    rintro step ⟨⟩
    decide
  have number : Float.isNaN 1.5 = false := by decide +kernel
  have behind : ∃ b, (Frequency.days 1).OnGrid b ∧ b ≤ { seconds := 0, nanos := 0 } :=
    ⟨{ seconds := 0, nanos := 0 }, by decide, by decide⟩
  obtain ⟨early, -, -⟩ := constant_enumerates requested number fits behind old
  obtain ⟨-, late, -⟩ := constant_enumerates requested number fits behind last
  refine ⟨early ⟨{ seconds := 40000, nanos := 0 }, rfl, by decide⟩, ?_⟩
  obtain ⟨grid, lists, few, -⟩ := late (fun r set => by cases set)
  have there : { seconds := 86400, nanos := 0 } ∈ grid := (lists.mem _).2 ⟨by decide, by decide, rfl⟩
  refine ⟨grid, lists, there, fun le => ?_⟩
  obtain ⟨s, made, values⟩ := few le
  exact ⟨s, made, (values _).trans (if_pos there)⟩

end Operator

end SeriesLang
