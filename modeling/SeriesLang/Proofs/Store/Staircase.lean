import SeriesLang.Proofs.Store.History

/-! # Staircases of a stored series

A staircase is cut from the snapshots at all insertion dates, each for as long as it is the last one that
counts. What is left at an instant is what its history has a lag before, so the staircase can be read off
the histories at once.
-/

namespace SeriesLang

variable {lag : Lag} {t d : Instant}

theorem ascending_stairSlice (lag : Lag) (d : Instant) (next : Option Instant) (snapshot : Series) :
    Sorted.Ascending (stairSlice lag d next snapshot) := by
  unfold stairSlice
  split
  · exact .nil
  · exact List.Pairwise.sublist List.filter_sublist snapshot.ascending

/-- The slice of a snapshot has its values from where its own date counts up to where the next one does. -/
theorem get?_stairSlice (lag : Lag) (d : Instant) (next : Option Instant) (snapshot : Series)
    (t : Instant) : Sorted.get? t (stairSlice lag d next snapshot) =
      if Instant.Visible lag t d ∧ ∀ later ∈ next, ¬ Instant.Visible lag t later then snapshot.get? t
      else none := by
  unfold stairSlice
  cases hlow : d.after? lag with
  | none =>
      have hidden : ¬ Instant.Visible lag t d := by
        rintro ⟨low, found, -⟩
        cases hlow.symm.trans found
      rw [if_neg (fun h => hidden h.1)]
      rfl
  | some low =>
      have visible : Instant.Visible lag t d ↔ low ≤ t := by
        constructor
        · rintro ⟨_, found, hle⟩
          cases hlow.symm.trans found
          exact hle
        · exact fun hle => ⟨low, hlow, hle⟩
      have open' : ((next.bind (·.after? lag)).all (fun h => decide (t < h)) = true) ↔
          ∀ later ∈ next, ¬ Instant.Visible lag t later := by
        cases next with
        | none => simp
        | some later =>
            cases hhigh : later.after? lag with
            | none =>
                simp only [Option.bind_some, hhigh, Option.all_none, true_iff]
                rintro _ ⟨⟩ ⟨high, found, -⟩
                cases hhigh.symm.trans found
            | some high =>
                simp only [Option.bind_some, hhigh, Option.all_some, decide_eq_true_eq]
                constructor
                · rintro hlt _ ⟨⟩ ⟨_, found, hle⟩
                  cases hhigh.symm.trans found
                  exact hle hlt
                · intro hidden
                  exact Instant.lt_of_not_le (fun hle => hidden later rfl ⟨high, hhigh, hle⟩)
      simp only
      rw [Sorted.get?_pick snapshot.ascending]
      have same : (decide (low ≤ t) && (next.bind (·.after? lag)).all (fun h => decide (t < h))) =
          decide (Instant.Visible lag t d ∧ ∀ later ∈ next, ¬ Instant.Visible lag t later) := by
        rw [Bool.eq_iff_iff, Bool.and_eq_true, decide_eq_true_eq, decide_eq_true_eq, visible, open']
      rw [Series.get?]
      cases Sorted.get? t snapshot.points with
      | none => rw [Option.filter_none, ite_self]
      | some v =>
          rw [Option.filter_some]
          dsimp only
          rw [same]
          by_cases shown : Instant.Visible lag t d ∧ ∀ later ∈ next, ¬ Instant.Visible lag t later
          · rw [if_pos shown, decide_eq_true shown, if_pos rfl]
          · rw [if_neg shown, decide_eq_false shown, if_neg Bool.false_ne_true]

/-- One more slice gives way to no value that stands at an instant where it has none. -/
theorem get?_insertSlice (s : Series) (lag : Lag) (d : Instant) (next : Option Instant)
    (snapshot : Series) (t : Instant) : (s.insertAll (stairSlice lag d next snapshot)).get? t =
      if Instant.Visible lag t d ∧ ∀ later ∈ next, ¬ Instant.Visible lag t later then
        (snapshot.get? t).or (s.get? t)
      else s.get? t := by
  rw [Series.get?_insertAll s (ascending_stairSlice lag d next snapshot), get?_stairSlice]
  by_cases shown : Instant.Visible lag t d ∧ ∀ later ∈ next, ¬ Instant.Visible lag t later
  · rw [if_pos shown, if_pos shown]
    cases found : snapshot.get? t with
    | none => rw [Option.none_or]
    | some v =>
        have kept := Series.defined?_of_mem (Series.get?_eq_some_iff.1 found)
        dsimp only at kept ⊢
        rw [Option.some_or, kept]
  · rw [if_neg shown, if_neg shown]

/-- What slices at dates leave at an instant: what the last date that counts there shows, on top of what
    was there before, or only that if no date counts. -/
def Decided (lag : Lag) (t : Instant) (shows : Instant → Option Float → Prop) (dates : List Instant)
    (before after : Option Float) : Prop :=
  (∀ d ∈ dates, ¬ Instant.Visible lag t d) ∧ after = before ∨
  ∃ d ∈ dates, Instant.Visible lag t d ∧ (∀ d' ∈ dates, Instant.Visible lag t d' → d' ≤ d) ∧
    ∃ value, shows d value ∧ after = value.or before

/-- A date that does not count anywhere has no slice. -/
theorem Decided.skip {shows : Instant → Option Float → Prop} {rest : List Instant}
    {before after : Option Float} (hidden : ¬ Instant.Visible lag t d)
    (h : Decided lag t shows rest before after) : Decided lag t shows (d :: rest) before after := by
  rcases h with ⟨none, same⟩ | ⟨d', hd', visible, last, showing⟩
  · exact .inl ⟨List.forall_mem_cons.2 ⟨hidden, none⟩, same⟩
  · exact .inr ⟨d', List.mem_cons_of_mem _ hd', visible,
      List.forall_mem_cons.2 ⟨fun seen => absurd seen hidden, last⟩, showing⟩

/-- Where one of some dates counts, the first of them does. -/
theorem exists_head_visible (forward : 0 ≤ lag.nanos) {dates : List Instant}
    (ascending : Index.Ascending dates) (regular : ∀ u ∈ dates, u.Regular) (hd : d ∈ dates)
    (visible : Instant.Visible lag t d) : ∃ first ∈ dates.head?, Instant.Visible lag t first := by
  cases dates with
  | nil => cases hd
  | cons first rest =>
      refine ⟨first, rfl, visible.earlier forward (regular d hd) (regular first List.mem_cons_self) ?_⟩
      rcases List.mem_cons.1 hd with rfl | hd
      · exact Instant.le_refl d
      · exact Instant.le_of_lt (List.rel_of_pairwise_cons ascending hd)

/-- One more slice, of a date before all others. -/
theorem Decided.cons {shows : Instant → Option Float → Prop} (forward : 0 ≤ lag.nanos)
    {rest : List Instant} (ascending : Index.Ascending (d :: rest))
    (regular : ∀ u ∈ d :: rest, u.Regular) {value before after : Option Float}
    (shown : Instant.Visible lag t d → shows d value)
    (h : Decided lag t shows rest
      (if Instant.Visible lag t d ∧ ∀ later ∈ rest.head?, ¬ Instant.Visible lag t later then
        value.or before else before) after) : Decided lag t shows (d :: rest) before after := by
  obtain ⟨first, ascending⟩ := List.pairwise_cons.1 ascending
  by_cases visible : Instant.Visible lag t d
  · rcases h with ⟨none, same⟩ | ⟨d', hd', seen, last, showing⟩
    · -- No later date counts, so nothing ends the slice of this one.
      have next : ∀ later ∈ rest.head?, ¬ Instant.Visible lag t later :=
        fun u hu => none u (List.mem_of_mem_head? hu)
      rw [if_pos ⟨visible, next⟩] at same
      exact .inr ⟨d, List.mem_cons_self, visible, List.forall_mem_cons.2
        ⟨fun _ => Instant.le_refl d, fun u hu seen => absurd seen (none u hu)⟩, value, shown visible, same⟩
    · -- A later date counts, so the next one does, and the slice of this one ends before.
      obtain ⟨second, hsecond, next⟩ := exists_head_visible forward ascending
        (fun u hu => regular u (List.mem_cons_of_mem _ hu)) hd' seen
      rw [if_neg (fun h => h.2 second hsecond next)] at showing
      exact .inr ⟨d', List.mem_cons_of_mem _ hd', seen,
        List.forall_mem_cons.2 ⟨fun _ => Instant.le_of_lt (first d' hd'), last⟩, showing⟩
  · rw [if_neg (fun h => visible h.1)] at h
    exact h.skip visible

namespace Staircase

theorem contains_stairBound {w : Window} {d : Instant} : (stairBound lag w).contains d = true ↔
    ∀ u ∈ w.upper, ∀ last, u.before? lag = some last → d ≤ last := by
  cases hupper : w.upper with
  | none => simp [stairBound, Window.contains, hupper]
  | some u =>
      cases hlast : u.before? lag with
      | none => simp [stairBound, Window.contains, hupper, hlast]
      | some last => simp [stairBound, Window.contains, hupper, hlast]

/-- A date that is cut off counts behind the window only. -/
theorem behind_of_cut {w : Window} (bounded : ∀ u ∈ w.upper, u.Regular) (ht : t.Regular)
    {known : Instant} (hknown : t.before? lag = some known) (hle : d ≤ known)
    (cut : ¬ (stairBound lag w).contains d = true) : ∃ u, w.upper = some u ∧ u < t := by
  rw [contains_stairBound] at cut
  simp only [not_forall] at cut
  obtain ⟨u, hupper, last, hlast, beyond⟩ := cut
  have hu := bounded u hupper
  refine ⟨u, hupper, ?_⟩
  obtain ⟨regular, sum⟩ := hu.addNanos?_eq_some_iff.1 hlast
  obtain ⟨regular', sum'⟩ := ht.addNanos?_eq_some_iff.1 hknown
  have earlier : last < known :=
    Instant.lt_of_not_le (fun later => beyond (Instant.le_trans hle later))
  rw [regular.lt_iff_count regular'] at earlier
  rw [hu.lt_iff_count ht]
  omega

end Staircase

namespace Store

variable {store : Store} {name : String} {w : Window}

/-- No insertion date and no value date lies in a leap second. -/
def Regular (store : Store) : Prop :=
  ∀ name s, store.find? name = some s →
    (∀ d ∈ s.insertionDates, d.Regular) ∧ ∀ p ∈ s.points, p.1.Regular

/-- What the slices of a series leave at an instant. -/
theorem decided_stairSlices {stored : StoredSeries} (found : store.find? name = some stored)
    (forward : 0 ≤ lag.nanos) (t : Instant) {dates : List Instant} (ascending : Index.Ascending dates)
    (regular : ∀ d ∈ dates, d.Regular) (s : Series) :
    Decided lag t (fun d value => value = (stored.read w (fun _ => some (some d))).get? t) dates
      (s.get? t) ((store.stairSlices name lag w s dates).get? t) := by
  induction dates generalizing s with
  | nil => exact .inl ⟨by simp, rfl⟩
  | cons d rest ih =>
      have snapshot : store.get? name w (some d) = some (stored.read w (fun _ => some (some d))) := by
        rw [get?, found, Option.map_some]
      have later := ih (List.pairwise_cons.1 ascending).2 (fun u hu => regular u (List.mem_cons_of_mem _ hu))
        (s.insertAll (stairSlice lag d rest.head? (stored.read w (fun _ => some (some d)))))
      rw [get?_insertSlice] at later
      simp only [stairSlices, snapshot]
      exact later.cons forward ascending regular (fun _ => rfl)

/-- All dates of a series that are known a lag before an instant of the window count there, and the bound
    on insertion dates leaves them. -/
theorem mem_of_known (forward : 0 ≤ lag.nanos) (bounded : ∀ u ∈ w.upper, u.Regular)
    {stored : StoredSeries} (found : store.find? name = some stored) (ht : t.Regular)
    (inside : w.contains t = true) {known : Instant} (hknown : t.before? lag = some known)
    (recorded : d ∈ stored.insertionDates) (hd : d.Regular) (hle : d ≤ known) :
    d ∈ store.insertionDates name (stairBound lag w) ∧ Instant.Visible lag t d := by
  refine ⟨mem_insertionDates.2 ⟨⟨stored, found, recorded⟩, ?_⟩,
    (Instant.visible_iff forward ht hd).2 ⟨known, hknown, hle⟩⟩
  by_contra cut
  obtain ⟨u, hupper, hlt⟩ := Staircase.behind_of_cut bounded ht hknown hle cut
  exact Window.le_of_contains hupper inside hlt

/-- The slices leave at every instant what its history has a lag before. -/
theorem get?_stairSlices (built : store.Built) (regular : store.Regular) (forward : 0 ≤ lag.nanos)
    (bounded : ∀ u ∈ w.upper, u.Regular) {stored : StoredSeries}
    (found : store.find? name = some stored) (t : Instant) :
    (store.stairSlices name lag w .empty (store.insertionDates name (stairBound lag w))).get? t =
      (stored.read w (fun t => (t.before? lag).map some)).get? t := by
  obtain ⟨dates, values⟩ := regular name stored found
  have dated := built.dated found
  have slices := decided_stairSlices (w := w) found forward t
    (ascending_insertionDates built name (stairBound lag w)) (fun d hd => by
      obtain ⟨⟨s, hs, recorded⟩, -⟩ := mem_insertionDates.1 hd
      cases found.symm.trans hs
      exact dates d recorded) .empty
  by_cases there : w.contains t = true ∧ ∃ history, Sorted.get? t stored.points = some history
  · obtain ⟨inside, history, here⟩ := there
    have mem := Sorted.mem_of_get? here
    have ht := values _ mem
    have counts : ∀ {known}, t.before? lag = some known → ∀ v ∈ history.versions, v.1 ≤ known →
        v.1 ∈ store.insertionDates name (stairBound lag w) ∧ Instant.Visible lag t v.1 := by
      intro known hknown v hv hle
      have recorded := dated.versions _ mem v hv
      exact mem_of_known forward bounded found ht inside hknown recorded (dates _ recorded) hle
    rw [StoredSeries.get?_read, if_pos inside, here]
    rcases slices with ⟨hidden, same⟩ | ⟨d, hd, visible, last, _, rfl, same⟩
    · rw [same]
      cases hknown : t.before? lag with
      | none => rfl
      | some known =>
          have early : history.valueAt? (some known) = none := History.valueAt?_early fun v hv hle =>
            hidden v.1 (counts hknown v hv hle).1 (counts hknown v hv hle).2
          rw [Option.map_some, Option.bind_some, Option.bind_some, early]
          rfl
    · obtain ⟨⟨s, hs, recorded⟩, -⟩ := mem_insertionDates.1 hd
      cases found.symm.trans hs
      obtain ⟨known, hknown, hle⟩ := (Instant.visible_iff forward ht (dates d recorded)).1 visible
      -- Between the last date that counts and a lag before the instant nothing was recorded.
      have between : history.valueAt? (some d) = history.valueAt? (some known) :=
        History.valueAt?_congr fun v hv => ⟨fun h => Instant.le_trans h hle, fun h =>
          last v.1 (counts hknown v hv h).1 (counts hknown v hv h).2⟩
      rw [same, StoredSeries.get?_read, if_pos inside, here, hknown, Option.map_some, Option.bind_some,
        Option.bind_some, Option.bind_some, Option.bind_some, between]
      exact Option.or_none
  · have blank : ∀ revision?, (stored.read w revision?).get? t = none := by
      intro revision?
      rw [StoredSeries.get?_read]
      split
      · rename_i inside
        cases here : Sorted.get? t stored.points with
        | none => rfl
        | some history => exact absurd ⟨inside, history, here⟩ there
      · rfl
    rw [blank]
    rcases slices with ⟨-, same⟩ | ⟨d, -, -, -, _, rfl, same⟩
    · exact same
    · rw [same, blank]
      rfl

theorem options_stairSlices (store : Store) (name : String) (lag : Lag) (w : Window) (s : Series)
    (dates : List Instant) : (store.stairSlices name lag w s dates).options = s.options := by
  induction dates generalizing s with
  | nil => rfl
  | cons d rest ih =>
      unfold stairSlices
      split
      · rw [ih, Series.options_insertAll]
      · exact ih s

/-- The staircase that is cut from the snapshots at all insertion dates is the one that is read off the
    histories. It has at every instant the value that the series had there a lag before, and none where no
    instant stands a lag before. -/
theorem staircase?_eq_replay (built : store.Built) (regular : store.Regular) (forward : 0 ≤ lag.nanos)
    (name : String) (bounded : ∀ u ∈ w.upper, u.Regular) :
    store.staircase? name lag w = store.replayStaircase? name lag w ∧
    ∀ t, (store.staircase? name lag w).bind (·.get? t) =
      (t.before? lag).bind (fun known => (store.get? name w (some known)).bind (·.get? t)) := by
  unfold staircase? replayStaircase? contains get?
  cases found : store.find? name with
  | none => simp
  | some stored =>
      simp only [Option.map_some, Option.isSome_some, if_true, Option.some.injEq, Option.bind_some]
      refine ⟨Series.ext_get? ?_ (fun t => ?_), fun t => ?_⟩
      · rw [options_stairSlices, StoredSeries.read, Series.options_ofPoints]
        rfl
      · exact (get?_stairSlices built regular forward bounded found t).symm
      · simp only [StoredSeries.get?_read, Option.bind_some]
        cases t.before? lag with
        | none => simp
        | some known => rfl

/-- A store with a series whose revisions were not recorded in the order of their dates. The value of one
    date was corrected, that of the other one was erased. -/
def revised : Store :=
  let first : Instant := { seconds := 20, nanos := 0 }
  let second : Instant := { seconds := 30, nanos := 0 }
  ((({} : Store).insert "x" { seconds := 15, nanos := 0 } [(first, 5)]).update "x"
    { seconds := 10, nanos := 0 } [(first, some 1), (second, some 2)]).update "x"
    { seconds := 26, nanos := 0 } [(second, none)]

theorem staircase?_eq_replay_revised :
    let first : Instant := { seconds := 20, nanos := 0 }
    let second : Instant := { seconds := 30, nanos := 0 }
    let w : Window := { upper := some second }
    revised.staircase? "x" (Lag.ofSeconds 4) w = revised.replayStaircase? "x" (Lag.ofSeconds 4) w ∧
      (revised.staircase? "x" (Lag.ofSeconds 4) w).bind (·.get? first) = some 5 ∧
      (revised.staircase? "x" (Lag.ofSeconds 6) w).bind (·.get? first) = some 1 ∧
      (revised.staircase? "x" (Lag.ofSeconds 4) w).bind (·.get? second) = none := by
  intro first second w
  have built : revised.Built := ((Built.empty.insert _ _ _).update _ _ _).update _ _ _
  have regular : revised.Regular := fun name s found =>
    (by decide +kernel : ∀ p ∈ revised.entries,
      (∀ d ∈ p.2.insertionDates, d.Regular) ∧ ∀ q ∈ p.2.points, q.1.Regular) _ (Sorted.mem_of_get? found)
  have bounded : ∀ u ∈ w.upper, u.Regular := by decide
  have short : 0 ≤ (Lag.ofSeconds 4).nanos := by decide
  have long : 0 ≤ (Lag.ofSeconds 6).nanos := by decide
  obtain ⟨same, late⟩ := staircase?_eq_replay built regular short "x" bounded
  obtain ⟨-, early⟩ := staircase?_eq_replay built regular long "x" bounded
  refine ⟨same, ?_, ?_, ?_⟩
  · rw [late]
    decide +kernel
  · rw [early]
    decide +kernel
  · rw [late]
    decide +kernel

end Store

end SeriesLang
