import SeriesLang.Proofs.Series.Points
import SeriesLang.Proofs.Success
import SeriesLang.Proofs.Time.Grid
import SeriesLang.Series.Aggregate

/-! # Buckets

A grid whose step can be taken divides time: an instant lies between the point below it and the next one, and
between no other neighbours. To resample a series is to give each point of the grid the aggregate of the points
that lie between it and the next one.
-/

namespace SeriesLang

/-- The aggregates of buckets have a number for all values there may be. -/
theorem Aggregate.exists_value? {name : String} {a : Aggregate} (h : ofBucketName? name = some a)
    {values : List Float} (nonempty : values ≠ []) : ∃ x, a.value? values = some x := by
  unfold ofBucketName? at h
  split at h <;> cases h
  · exact ⟨_, rfl⟩
  · exact ⟨_, rfl⟩
  · exact ⟨_, rfl⟩
  · exact ⟨_, rfl⟩
  · exact ⟨_, List.head?_eq_some_head nonempty⟩
  · exact ⟨_, List.getLast?_eq_some_getLast nonempty⟩
  · exact ⟨_, rfl⟩

namespace Series

variable {s : Series} {f : Frequency} {t b c : Instant}

/-- The values of the points from an instant on and before another one, in the order of time. -/
def valuesBetween (s : Series) (b c : Instant) : List Float :=
  (s.points.filter (fun p => decide (b ≤ p.1 ∧ p.1 < c))).map Prod.snd

theorem valuesBetween_ne_nil (ht : t ∈ s.index) (le : b ≤ t) (lt : t < c) : s.valuesBetween b c ≠ [] := by
  obtain ⟨p, hp, rfl⟩ := List.mem_map.1 ht
  intro none
  have inside : p ∈ s.points.filter (fun p => decide (b ≤ p.1 ∧ p.1 < c)) :=
    List.mem_filter.2 ⟨hp, decide_eq_true ⟨le, lt⟩⟩
  rw [List.map_eq_nil_iff.1 none] at inside
  cases inside

/-- The buckets of a series are those in which its instants lie, each with all of its points. -/
theorem buckets_ok (fits : f.Fits) (covered : ∀ t ∈ s.index, f.Covers t) :
    ∃ groups, s.buckets f = .ok groups ∧ Sorted.Ascending groups ∧
      (∀ b, (∀ t ∈ s.index, f.floor t ≠ .ok b) → Sorted.get? b groups = none) ∧
      ∀ t ∈ s.index, ∀ b c, f.Bucket t b c → Sorted.get? b groups = some (s.valuesBetween b c) := by
  -- Every point is put under the start of its bucket.
  let start (t : Instant) : Instant := (f.floor t).toOption.getD t
  have floor_start : ∀ t ∈ s.index, f.floor t = .ok (start t) := by
    intro t ht
    obtain ⟨b, c, bucket⟩ := (covered t ht).bucket fits
    simp only [start, bucket.floor, Except.toOption, Option.getD_some]
  have member : ∀ p ∈ s.points, p.1 ∈ s.index := fun p hp => List.mem_map_of_mem hp
  have floored : s.points.mapM (fun p => (f.floor p.1).bind fun b => .ok (b, p.2)) =
      .ok (s.points.map (fun p => (start p.1, p.2))) := by
    refine mapM_eq_map fun p hp => ?_
    rw [floor_start p.1 (member p hp)]
    rfl
  refine ⟨Sorted.group (s.points.map (fun p => (start p.1, p.2))), ?_, Sorted.ascending_group _, ?_, ?_⟩
  · show (s.points.mapM (fun p => (f.floor p.1).bind fun b => .ok (b, p.2))).bind _ = _
    rw [floored]
    rfl
  · intro b other
    rw [Sorted.get?_group, if_neg]
    intro hb
    simp only [List.map_map, List.mem_map, Function.comp_apply] at hb
    obtain ⟨p, hp, rfl⟩ := hb
    exact other p.1 (member p hp) (floor_start p.1 (member p hp))
  · intro t ht b c bucket
    have same : start t = b := by
      have found := (floor_start t ht).symm.trans bucket.floor
      exact Except.ok.inj found
    have there : b ∈ (s.points.map (fun p => (start p.1, p.2))).map Prod.fst := by
      obtain ⟨p, hp, rfl⟩ := List.mem_map.1 ht
      rw [List.map_map]
      exact List.mem_map.2 ⟨p, hp, same⟩
    rw [Sorted.get?_group, if_pos there, List.filter_map, List.map_map, valuesBetween]
    congr 2
    refine List.filter_congr fun p hp => ?_
    have mine := bucket.floor_iff fits (covered p.1 (member p hp))
    rw [floor_start p.1 (member p hp), Except.ok.injEq] at mine
    exact decide_eq_decide.2 mine

/-- To resample a series is to take the aggregate of every bucket that has points; one that is not a number
    gives none. -/
theorem resample_ok (fits : f.Fits) (covered : ∀ t ∈ s.index, f.Covers t) {name : String}
    {a : Aggregate} (bucketwise : Aggregate.ofBucketName? name = some a) :
    ∃ r, s.resample f a = .ok r ∧ (∀ b, (∀ t ∈ s.index, f.floor t ≠ .ok b) → r.get? b = none) ∧
      ∀ t ∈ s.index, ∀ b c, f.Bucket t b c →
        ∃ x, a.value? (s.valuesBetween b c) = some x ∧ r.get? b = defined? x := by
  obtain ⟨groups, grouped, ascending, absent, present⟩ := buckets_ok fits covered
  have value : ∀ b, (ofPoints (groups.filterMap (fun p => (a.value? p.2).map (p.1, ·)))).get? b =
      ((Sorted.get? b groups).bind a.value?).bind defined? := get?_ofPoints_values ascending
  refine ⟨ofPoints (groups.filterMap (fun p => (a.value? p.2).map (p.1, ·))), ?_, ?_, ?_⟩
  · rw [resample, grouped]
    rfl
  · intro b other
    rw [value, absent b other]
    rfl
  · intro t ht b c bucket
    obtain ⟨x, hx⟩ := Aggregate.exists_value? bucketwise (valuesBetween_ne_nil ht bucket.le bucket.lt)
    refine ⟨x, hx, ?_⟩
    rw [value, present t ht b c bucket, Option.bind_some, hx, Option.bind_some]

/-- A grid whose step can be taken partitions time, and the series that it resamples. An instant lies between
    two neighbours in the grid, which are the point below it and the next one; the point below is the same for
    the point itself and no earlier for a later instant, the point above is the least one that is not before
    the instant. A resampled series has points at the points below those of the series only: where the
    aggregate of all points in the bucket is a number, that number. -/
theorem grid_partitions (fits : f.Fits) :
    (∀ t, f.Covers t → ∃ b c, f.Bucket t b c ∧ f.floor b = .ok b ∧
      ∃ u, f.ceil t = .ok (some u) ∧ f.OnGrid u ∧ t ≤ u ∧ ∀ g, f.OnGrid g → t ≤ g → u ≤ g) ∧
    (∀ t u b d, f.Covers t → f.Covers u → t ≤ u → f.floor t = .ok b → f.floor u = .ok d → b ≤ d) ∧
    ∀ (s : Series) name a, (∀ t ∈ s.index, f.Covers t) → Aggregate.ofBucketName? name = some a →
      ∃ r, s.resample f a = .ok r ∧ (∀ b, (∀ t ∈ s.index, f.floor t ≠ .ok b) → r.get? b = none) ∧
        ∀ t ∈ s.index, ∀ b c, f.Bucket t b c →
          ∃ x, a.value? (s.valuesBetween b c) = some x ∧ r.get? b = defined? x := by
  refine ⟨fun t covered => ?_, fun t u b d ht hu le below below' => ?_,
    fun s name a covered bucketwise => ?_⟩
  · obtain ⟨b, c, bucket⟩ := covered.bucket fits
    exact ⟨b, c, bucket, Frequency.floor_onGrid fits bucket.first, covered.exists_ceil fits⟩
  · exact Frequency.floor_mono fits ht hu le below below'
  · exact resample_ok fits covered bucketwise

/-- The last nanosecond before 1970 lies in the month that starts 31 days before, whose mean is made of two
    points. -/
theorem grid_partitions_months :
    let december : Instant := { seconds := -2678400, nanos := 0 }
    let last : Instant := { seconds := -1, nanos := 999999999 }
    let january : Instant := { seconds := 0, nanos := 0 }
    let s := Series.ofPoints [(december, 1), (last, 3), (january, 5)]
    Frequency.monthStart.Bucket last december january ∧
      Frequency.monthStart.floor december = .ok december ∧
      Frequency.monthStart.ceil last = .ok (some january) ∧ december ≤ january ∧
      ∃ r, s.resample .monthStart .mean = .ok r ∧ r.get? december = some 2 ∧ r.get? last = none := by
  intro december last january s
  have fits : Frequency.monthStart.Fits := nofun
  have starts : ∀ t ∈ [december, january, { seconds := 2678400, nanos := 0 }],
      Frequency.monthStart.OnGrid t := by decide +kernel
  simp only [List.mem_cons, List.not_mem_nil, or_false, forall_eq_or_imp, forall_eq] at starts
  obtain ⟨first, second, third⟩ := starts
  have index : s.index = [december, last, january] := by decide +kernel
  have covers : ∀ t ∈ s.index, Frequency.monthStart.Covers t := by
    rw [index]
    intro t ht
    have bounds : ∀ t ∈ [december, last, january], december ≤ t ∧
        t < { seconds := 2678400, nanos := 0 } := by decide
    exact ⟨⟨december, first, (bounds t ht).1⟩, _, third, (bounds t ht).2⟩
  have below : Frequency.monthStart.floor last = .ok december := toOption_eq_some_iff.1 (by decide +kernel)
  have after : Frequency.monthStart.next december = .ok (some january) :=
    toOption_eq_some_iff.1 (by decide +kernel)
  have above : Frequency.monthStart.floor january = .ok january := toOption_eq_some_iff.1 (by decide +kernel)
  have ends : last ∈ s.index ∧ january ∈ s.index := by
    rw [index]
    decide
  obtain ⟨grid, monotone, resampled⟩ := grid_partitions fits
  obtain ⟨b, c, bucket, idempotent, u, found, -⟩ := grid last (covers last ends.1)
  cases below.symm.trans bucket.floor
  cases after.symm.trans bucket.next
  have ordered := monotone last january december january (covers last ends.1) (covers january ends.2)
    (by decide) below above
  obtain ⟨r, made, absent, present⟩ := resampled s "mean" .mean covers rfl
  obtain ⟨x, mean, value⟩ := present last ends.1 december january bucket
  have two : Aggregate.mean.value? (s.valuesBetween december january) = some 2 := by decide +kernel
  cases two.symm.trans mean
  refine ⟨bucket, idempotent, ?_, ordered, r, made, ?_, absent last fun t ht => ?_⟩
  · exact toOption_eq_some_iff.1 (by decide +kernel)
  · rw [value]
    decide +kernel
  · have elsewhere : ∀ t ∈ [december, last, january],
        (Frequency.monthStart.floor t).toOption ≠ some last := by decide +kernel
    rw [index] at ht
    exact fun same => elsewhere t ht (toOption_eq_some_iff.2 same)

/-- A bucket whose sum is not a number has no point, although points of the series lie in it. -/
theorem resample_infinities :
    let midnight : Instant := { seconds := 1577836800, nanos := 0 }
    let noon : Instant := { seconds := 1577880000, nanos := 0 }
    let s := Series.ofPoints [(midnight, Decimal.infinity), (noon, -Decimal.infinity)]
    (∀ t ∈ s.index, (Frequency.days 1).Covers t) ∧ midnight ∈ s.index ∧
      (Frequency.days 1).floor midnight = .ok midnight ∧
      ∃ r, s.resample (.days 1) .sum = .ok r ∧ midnight ∉ r.index := by
  intro midnight noon s
  have index : s.index = [midnight, noon] := by decide +kernel
  have bounds : ∀ t ∈ [midnight, noon], midnight ≤ t ∧ t < { seconds := 1577923200, nanos := 0 } := by
    decide
  refine ⟨fun t ht => ⟨⟨midnight, by decide, ?_⟩, { seconds := 1577923200, nanos := 0 }, by decide, ?_⟩,
    ?_, toOption_eq_some_iff.1 (by decide +kernel), ?_⟩
  · exact (bounds t (index ▸ ht)).1
  · exact (bounds t (index ▸ ht)).2
  · rw [index]
    exact List.mem_cons_self
  · have made : (s.resample (.days 1) .sum).toOption.map Series.index = some [] := by decide +kernel
    obtain ⟨r, hr, empty⟩ := Option.map_eq_some_iff.1 made
    refine ⟨r, toOption_eq_some_iff.1 hr, ?_⟩
    rw [empty]
    exact List.not_mem_nil

end Series

end SeriesLang
