import SeriesLang.Proofs.Success
import SeriesLang.Proofs.Time.Months
import SeriesLang.Proofs.Time.Moves
import SeriesLang.Time.Frequency

/-! # Grids

The points of a grid are counted, those that are a step apart like the starts of months. The point below an
instant and the one after it are found by the count, so the buckets between neighbours divide time.
-/

namespace SeriesLang

namespace Instant

variable {t a b : Instant} {k : Int}

theorem ofSeconds?_eq_some_iff {seconds : Int} {nanos : Nat} :
    ofSeconds? seconds nanos = some b ↔ b.seconds = seconds ∧ b.nanos = nanos := by
  obtain ⟨s, n, least, greatest, bound⟩ := b
  unfold ofSeconds?
  split
  · simp only [Option.some.injEq, mk.injEq]
    omega
  · simp only [reduceCtorEq, false_iff]
    omega

theorem le_antisymm (h : a ≤ b) (k : b ≤ a) : a = b := by
  rcases lt_trichotomy a b with hab | heq | hba
  · exact absurd hab k
  · exact heq
  · exact absurd hba h

/-- The start of a second is not after an instant in it or later. -/
theorem le_iff_seconds (start : b.nanos = 0) : b ≤ t ↔ b.seconds ≤ t.seconds := by
  show ¬ t < b ↔ _
  rw [lt_iff]
  omega

theorem seconds_mono (h : a ≤ b) : a.seconds ≤ b.seconds := by
  have before : ¬ b < a := h
  rw [lt_iff] at before
  omega

theorem ofSeconds?_le {seconds : Int} (h : ofSeconds? seconds 0 = some b)
    (hle : seconds ≤ t.seconds) : b ≤ t := by
  obtain ⟨rfl, start⟩ := ofSeconds?_eq_some_iff.1 h
  exact (le_iff_seconds start).2 hle

/-- The range begins with the first year and ends with the last one. -/
theorem monthStart_ends : Calendar.monthStart (Calendar.minYear * 12) * 86400 = minSeconds ∧
    Calendar.monthStart ((Calendar.maxYear + 1) * 12) * 86400 = maxSeconds + 1 := by
  decide +kernel

/-- A time of a day in a month is in range if the year of the month is. -/
theorem ofDate?_dateInMonth {behind second : Nat} (inside : behind < Calendar.lengthOf k)
    (time : second < 86400) (nanos : Nat) : ofDate? (Calendar.dateInMonth k behind) second nanos =
      ofSeconds? ((Calendar.monthStart k + behind) * 86400 + second) nanos := by
  unfold ofDate?
  obtain ⟨first, beyond⟩ := monthStart_ends
  split
  · rw [Calendar.daysOfDate_dateInMonth]
  · rename_i invalid
    rw [Calendar.isValid_dateInMonth inside] at invalid
    unfold ofSeconds?
    rw [dif_neg]
    rintro ⟨⟨least, greatest⟩, -⟩
    by_cases early : k < Calendar.minYear * 12
    · have ends := Calendar.monthStart_succ k
      have before := Calendar.monthStart_le (k := k + 1) (l := Calendar.minYear * 12) (by omega)
      simp only [minSeconds] at first
      unfold Calendar.lengthOf at inside
      omega
    · have late : (Calendar.maxYear + 1) * 12 ≤ k := by omega
      have after := Calendar.monthStart_le late
      simp only [maxSeconds] at beyond
      omega

theorem ofDate?_firstOfMonth (k : Int) : ofDate? (Calendar.firstOfMonth k) 0 0 =
    ofSeconds? (Calendar.monthStart k * 86400) 0 := by
  have same := ofDate?_dateInMonth (Calendar.daysInMonth_pos k) (by decide : 0 < 86400) 0
  rw [Int.natCast_zero, Int.add_zero, Int.add_zero] at same
  exact same

theorem startOfMonth_eq (t : Instant) : t.startOfMonth =
    (ofSeconds? (Calendar.monthStart (Calendar.monthOf t.day) * 86400) 0).getD t := by
  have first : (⟨t.date.year, t.date.month, 1⟩ : Date) =
      Calendar.firstOfMonth (Calendar.monthOf t.day) := by
    rw [date, (Calendar.dateOfDays_eq t.day).1]
    rfl
  rw [startOfMonth, first, ofDate?_firstOfMonth]

theorem startOfMonth_le (t : Instant) : t.startOfMonth ≤ t := by
  rw [startOfMonth_eq]
  cases h : ofSeconds? (Calendar.monthStart (Calendar.monthOf t.day) * 86400) 0 with
  | none => exact le_refl t
  | some b =>
      apply ofSeconds?_le h
      have first := (Calendar.dateOfDays_eq t.day).2.1
      simp only [day] at first ⊢
      omega

theorem date_of_monthStart (h : b.seconds = Calendar.monthStart k * 86400) :
    b.day = Calendar.monthStart k ∧ b.date = Calendar.firstOfMonth k ∧ b.secondOfDay = 0 := by
  have day : b.day = Calendar.monthStart k := by
    rw [Instant.day, h, Int.mul_ediv_cancel _ (by decide)]
  refine ⟨day, ?_, ?_⟩
  · rw [date, day, Calendar.dateOfDays_monthStart]
  · rw [secondOfDay, h, Int.mul_emod_left]
    rfl

/-- A month after the start of a month the next one starts. -/
theorem addMonths?_one (start : b.nanos = 0) (h : b.seconds = Calendar.monthStart k * 86400) :
    b.addMonths? 1 = ofSeconds? (Calendar.monthStart (k + 1) * 86400) 0 := by
  obtain ⟨-, date, second⟩ := date_of_monthStart h
  have total : (Calendar.firstOfMonth k).year * 12 + ((Calendar.firstOfMonth k).month - 1 : Nat) + 1 =
      k + 1 := by
    simp only [Calendar.firstOfMonth]
    omega
  have length := Calendar.daysInMonth_pos (k + 1)
  have first : min (Calendar.firstOfMonth k).day
      (Calendar.daysInMonth ((k + 1) / 12) (((k + 1) % 12).toNat + 1)) = 1 :=
    Nat.min_eq_left length
  simp only [addMonths?, date, second, start, total, first]
  exact ofDate?_firstOfMonth (k + 1)

end Instant

namespace Frequency

variable {f : Frequency} {t u a b c : Instant} {k l m : Int}

/-- The seconds between two points of a grid that is evenly spaced, were there no greatest number. -/
def spacing? : Frequency → Option Int
  | .minutes n => some (n * 60)
  | .hours n => some (n * 3600)
  | .days n => some (n * 86400)
  | .monthStart => none

/-- There is a step, and it is not longer than the longest span. -/
def Fits (f : Frequency) : Prop :=
  ∀ step, f.spacing? = some step → 0 < step ∧ step ≤ Span.maxSeconds

/-- A multiple of the step, counted from the start of 1970, or midnight on the first day of a month. -/
def OnGrid (f : Frequency) (t : Instant) : Prop :=
  t.nanos = 0 ∧ match f.spacing? with
    | some step => step ∣ t.seconds
    | none => t.secondOfDay = 0 ∧ t.date.day = 1

instance (f : Frequency) (t : Instant) : Decidable (f.OnGrid t) :=
  match h : f.spacing? with
  | some step => decidable_of_iff (t.nanos = 0 ∧ step ∣ t.seconds) (by simp [OnGrid, h])
  | none => decidable_of_iff (t.nanos = 0 ∧ t.secondOfDay = 0 ∧ t.date.day = 1) (by simp [OnGrid, h])

/-- There are points of the grid before or at the instant and after it. -/
def Covers (f : Frequency) (t : Instant) : Prop :=
  (∃ b, f.OnGrid b ∧ b ≤ t) ∧ ∃ c, f.OnGrid c ∧ t < c

/-- The two instants are the bounds of the bucket of another one: neighbours in the grid, the second one
    excluded. -/
structure Bucket (f : Frequency) (t b c : Instant) : Prop where
  floor : f.floor t = .ok b
  next : f.next b = .ok (some c)
  first : f.OnGrid b
  last : f.OnGrid c
  le : b ≤ t
  lt : t < c
  neighbours : ∀ g, f.OnGrid g → g ≤ b ∨ c ≤ g

/-- The seconds of a point of the grid, in the order of points. -/
def point (f : Frequency) (k : Int) : Int :=
  match f.spacing? with
  | some step => k * step
  | none => Calendar.monthStart k * 86400

/-- How many points there are up to a second. -/
def index (f : Frequency) (seconds : Int) : Int :=
  match f.spacing? with
  | some step => seconds / step
  | none => Calendar.monthOf (seconds / 86400)

theorem Fits.stepSeconds? (fits : f.Fits) : f.stepSeconds? = f.spacing? := by
  have small : ∀ step, f.spacing? = some step → Word.wrap step = step := by
    intro step hstep
    obtain ⟨positive, short⟩ := fits step hstep
    apply Word.wrap_of_fits
    simp only [Word.Fits, Span.maxSeconds] at *
    omega
  cases f with
  | minutes n => exact congrArg some (small _ rfl)
  | hours n => exact congrArg some (small _ rfl)
  | days n => exact congrArg some (small _ rfl)
  | monthStart => rfl

theorem Fits.span (fits : f.Fits) {step : Int} (spacing : f.spacing? = some step) :
    Span.ofSeconds? step = some step := by
  obtain ⟨positive, short⟩ := fits step spacing
  have forward : -Span.maxSeconds ≤ step := by
    unfold Span.maxSeconds
    omega
  rw [Span.ofSeconds?, if_pos ⟨forward, short⟩]

theorem point_le_iff (fits : f.Fits) {seconds : Int} : f.point k ≤ seconds ↔ k ≤ f.index seconds := by
  cases spacing : f.spacing? with
  | some step =>
      simp only [point, index, spacing]
      exact (Int.le_ediv_iff_mul_le (fits step spacing).1).symm
  | none =>
      simp only [point, index, spacing]
      rw [← Calendar.monthStart_le_iff]
      omega

theorem index_point (fits : f.Fits) (k : Int) : f.index (f.point k) = k := by
  cases spacing : f.spacing? with
  | some step =>
      simp only [point, index, spacing]
      have positive := (fits step spacing).1
      exact Int.mul_ediv_cancel k (by omega)
  | none =>
      simp only [point, index, spacing]
      rw [Int.mul_ediv_cancel _ (by decide), Calendar.monthOf_monthStart]

theorem point_le_point (fits : f.Fits) : f.point k ≤ f.point l ↔ k ≤ l := by
  rw [point_le_iff fits, index_point fits]

theorem index_le (fits : f.Fits) (h : t ≤ u) : f.index t.seconds ≤ f.index u.seconds := by
  have below : f.point (f.index t.seconds) ≤ t.seconds := (point_le_iff fits).2 (Int.le_refl _)
  exact (point_le_iff fits).1 (Int.le_trans below (Instant.seconds_mono h))

/-- The instant is a point of the grid, with this number. -/
structure IsPoint (f : Frequency) (k : Int) (b : Instant) : Prop where
  nanos : b.nanos = 0
  seconds : b.seconds = f.point k

theorem onGrid_iff : f.OnGrid t ↔ ∃ k, f.IsPoint k t := by
  constructor
  · rintro ⟨start, grid⟩
    cases spacing : f.spacing? with
    | some step =>
        simp only [spacing] at grid
        obtain ⟨k, hk⟩ := grid
        refine ⟨k, start, ?_⟩
        simp only [point, spacing]
        rw [hk, Int.mul_comm]
    | none =>
        simp only [spacing] at grid
        obtain ⟨midnight, first⟩ := grid
        refine ⟨Calendar.monthOf t.day, start, ?_⟩
        obtain ⟨date, before, -⟩ := Calendar.dateOfDays_eq t.day
        rw [Instant.date, date] at first
        simp only [point, spacing, Instant.secondOfDay, Instant.day] at *
        omega
  · rintro ⟨k, start, seconds⟩
    refine ⟨start, ?_⟩
    cases spacing : f.spacing? with
    | some step =>
        simp only [point, spacing] at seconds ⊢
        exact ⟨k, by rw [seconds, Int.mul_comm]⟩
    | none =>
        simp only [point, spacing] at seconds ⊢
        obtain ⟨-, date, midnight⟩ := Instant.date_of_monthStart seconds
        exact ⟨midnight, by rw [date]; rfl⟩

namespace IsPoint

theorem le_iff (fits : f.Fits) (h : f.IsPoint k b) : b ≤ t ↔ k ≤ f.index t.seconds := by
  rw [Instant.le_iff_seconds h.nanos, h.seconds, point_le_iff fits]

theorem lt_iff (fits : f.Fits) (h : f.IsPoint k b) : t < b ↔ f.index t.seconds < k := by
  have le := h.le_iff (t := t) fits
  constructor
  · intro hlt
    have beyond : ¬ k ≤ f.index t.seconds := fun later => le.2 later hlt
    omega
  · intro hlt
    exact Instant.lt_of_not_le (fun later => absurd (le.1 later) (by omega))

theorem index (fits : f.Fits) (h : f.IsPoint k b) : f.index b.seconds = k := by
  rw [h.seconds, index_point fits]

theorem unique (h : f.IsPoint k a) (h' : f.IsPoint k b) : a = b := by
  have seconds := h.seconds.trans h'.seconds.symm
  have nanos := h.nanos.trans h'.nanos.symm
  cases a
  cases b
  cases seconds
  cases nanos
  rfl

/-- What lies between two points of the grid is in range. -/
theorem between (fits : f.Fits) (ha : f.IsPoint k a) (hb : f.IsPoint l b) (lower : k ≤ m)
    (upper : m ≤ l) : ∃ c, f.IsPoint m c := by
  have low := (point_le_point fits).2 lower
  have high := (point_le_point fits).2 upper
  rw [← ha.seconds] at low
  rw [← hb.seconds] at high
  have least := a.seconds_ge
  have greatest := b.seconds_le
  exact ⟨⟨f.point m, 0, by omega, by omega, by omega⟩, rfl, rfl⟩

end IsPoint

/-- The greatest point that is not after an instant is found by its number, if it is in range. -/
theorem floor_eq (fits : f.Fits) (h : f.IsPoint (f.index t.seconds) b) : f.floor t = .ok b := by
  have made : Instant.ofSeconds? (f.point (f.index t.seconds)) 0 = some b :=
    Instant.ofSeconds?_eq_some_iff.2 ⟨h.seconds, h.nanos⟩
  unfold floor
  rw [fits.stepSeconds?]
  cases spacing : f.spacing? with
  | some step =>
      have positive := (fits step spacing).1
      have whole : t.seconds - t.seconds % step = t.seconds / step * step := by
        rw [Int.emod_def, Int.mul_comm]
        omega
      simp only [point, index, spacing] at made
      simp only [if_neg (show ¬ step = 0 by omega), whole, made, Option.getD_some]
  | none =>
      simp only [point, index, spacing] at made
      simp only [Instant.startOfMonth_eq, Instant.day, made, Option.getD_some]

/-- From a point the step leads to the next one by number, if it is in range. -/
theorem next_point (fits : f.Fits) (hb : f.IsPoint k b) :
    f.next b = .ok (Instant.ofSeconds? (f.point (k + 1)) 0) := by
  have seconds := hb.seconds
  unfold next
  rw [fits.stepSeconds?]
  cases spacing : f.spacing? with
  | some step =>
      simp only [point, spacing] at seconds ⊢
      simp only [fits.span spacing, Instant.addSeconds?, hb.nanos, seconds, Int.add_mul, Int.one_mul]
      rw [if_pos (.inl (by decide))]
  | none =>
      simp only [point, spacing] at seconds ⊢
      have day := (Instant.date_of_monthStart seconds).1
      have here : Instant.ofSeconds? (Calendar.monthStart k * 86400) 0 = some b :=
        Instant.ofSeconds?_eq_some_iff.2 ⟨seconds, hb.nanos⟩
      simp only [Instant.startOfMonth_eq, day, Calendar.monthOf_monthStart, here, Option.getD_some,
        Instant.addMonths?_one hb.nanos seconds]

/-- The point after one is the next by number. -/
theorem next_eq (fits : f.Fits) (hb : f.IsPoint k b) (hc : f.IsPoint (k + 1) c) :
    f.next b = .ok (some c) := by
  have made : Instant.ofSeconds? (f.point (k + 1)) 0 = some c :=
    Instant.ofSeconds?_eq_some_iff.2 ⟨hc.seconds, hc.nanos⟩
  rw [next_point fits hb, made]

/-- The bounds of the bucket of an instant have neighbouring numbers. -/
theorem Covers.points (fits : f.Fits) (h : f.Covers t) : ∃ b c,
    f.IsPoint (f.index t.seconds) b ∧ f.IsPoint (f.index t.seconds + 1) c := by
  obtain ⟨⟨b, hb, before⟩, c, hc, after⟩ := h
  obtain ⟨k, hb⟩ := onGrid_iff.1 hb
  obtain ⟨l, hc⟩ := onGrid_iff.1 hc
  have lower := (hb.le_iff fits).1 before
  have upper := (hc.lt_iff fits).1 after
  obtain ⟨b', hb'⟩ := hb.between fits hc lower (by omega)
  obtain ⟨c', hc'⟩ := hb.between fits hc (m := f.index t.seconds + 1) (by omega) (by omega)
  exact ⟨b', c', hb', hc'⟩

theorem bucket_of_points (fits : f.Fits) (hb : f.IsPoint (f.index t.seconds) b)
    (hc : f.IsPoint (f.index t.seconds + 1) c) : f.Bucket t b c where
  floor := floor_eq fits hb
  next := next_eq fits hb hc
  first := onGrid_iff.2 ⟨_, hb⟩
  last := onGrid_iff.2 ⟨_, hc⟩
  le := (hb.le_iff fits).2 (Int.le_refl _)
  lt := (hc.lt_iff fits).2 (Int.lt_succ _)
  neighbours g hg := by
    obtain ⟨k, hg⟩ := onGrid_iff.1 hg
    rw [hg.le_iff fits, hc.le_iff fits, hb.index fits, hg.index fits]
    omega

theorem Covers.bucket (fits : f.Fits) (h : f.Covers t) : ∃ b c, f.Bucket t b c := by
  obtain ⟨b, c, hb, hc⟩ := h.points fits
  exact ⟨b, c, bucket_of_points fits hb hc⟩

/-- The bucket of an instant is the one that it lies in. -/
theorem Bucket.floor_iff (fits : f.Fits) (bucket : f.Bucket t b c) (h : f.Covers u) :
    f.floor u = .ok b ↔ b ≤ u ∧ u < c := by
  obtain ⟨b', c', hb', hc'⟩ := h.points fits
  have mine := bucket_of_points fits hb' hc'
  constructor
  · intro same
    cases mine.floor.symm.trans same
    cases mine.next.symm.trans bucket.next
    exact ⟨mine.le, mine.lt⟩
  · rintro ⟨le, lt⟩
    rw [mine.floor]
    congr 1
    apply Instant.le_antisymm
    · exact (bucket.neighbours b' mine.first).resolve_right
        (fun later => Instant.le_trans later mine.le lt)
    · exact (mine.neighbours b bucket.first).resolve_right (fun later => Instant.le_trans later le mine.lt)

/-- The point below a point of the grid is that point. -/
theorem floor_onGrid (fits : f.Fits) (h : f.OnGrid b) : f.floor b = .ok b := by
  obtain ⟨k, hk⟩ := onGrid_iff.1 h
  exact floor_eq fits ((hk.index fits).symm ▸ hk)

theorem floor_mono (fits : f.Fits) (ht : f.Covers t) (hu : f.Covers u) (le : t ≤ u)
    (below : f.floor t = .ok b) (below' : f.floor u = .ok c) : b ≤ c := by
  obtain ⟨b', _, hb, -⟩ := ht.points fits
  obtain ⟨c', _, hc, -⟩ := hu.points fits
  cases below.symm.trans (floor_eq fits hb)
  cases below'.symm.trans (floor_eq fits hc)
  rw [hb.le_iff fits, hc.index fits]
  exact index_le fits le

/-- The point above an instant is the least one that is not before it. -/
theorem Covers.exists_ceil (fits : f.Fits) (h : f.Covers t) : ∃ u, f.ceil t = .ok (some u) ∧ f.OnGrid u ∧
    t ≤ u ∧ ∀ g, f.OnGrid g → t ≤ g → u ≤ g := by
  obtain ⟨b, c, bucket⟩ := h.bucket fits
  have opened : f.ceil t = if b = t then .ok (some t) else f.next b := by
    unfold ceil
    rw [bucket.floor]
    rfl
  by_cases same : b = t
  · subst same
    rw [opened, if_pos rfl]
    exact ⟨b, rfl, bucket.first, Instant.le_refl b, fun g _ le => le⟩
  · rw [opened, if_neg same, bucket.next]
    refine ⟨c, rfl, bucket.last, Instant.le_of_lt bucket.lt, fun g hg le => ?_⟩
    refine (bucket.neighbours g hg).resolve_left fun before => same ?_
    exact Instant.le_antisymm bucket.le (Instant.le_trans le before)

theorem floor_le (h : f.floor t = .ok b) : b ≤ t := by
  unfold floor at h
  split at h
  · rename_i step _
    obtain ⟨nonzero, h⟩ := ok_of_else h
    cases h
    cases moved : Instant.ofSeconds? (t.seconds - t.seconds % step) 0 with
    | none => exact Instant.le_refl t
    | some b =>
        apply Instant.ofSeconds?_le moved
        have rest := Int.emod_nonneg t.seconds nonzero
        omega
  · cases h
    exact t.startOfMonth_le

end Frequency

end SeriesLang
