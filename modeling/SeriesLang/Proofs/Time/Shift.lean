import SeriesLang.Proofs.Time.Reach
import SeriesLang.Word

/-! # Shifts by calendar months

A shift moves by months to the same time of a day in another month and then by a span. It needs integers that
fit into 64 bits only, but for the months that have no negation, and ends with nothing if there is no such
instant. With what is known of grids this says which arithmetic on dates finishes.
-/

namespace SeriesLang

/-- The integer itself, if it is one of 32 bits without a sign. -/
def Word.unsigned? (n : Int) : Option Int :=
  if 0 ≤ n ∧ n ≤ 4294967295 then some n else none

namespace Instant

variable {t u m : Instant} {months : Int}

/-- The number of months as the calendar takes it: without a sign in 32 bits, to go forth or back. The number of
    those to go back is the negation, in 64 bits. -/
def calendarMonths? (months : Int) : Option Int :=
  if 0 ≤ months then Word.unsigned? months else (Word.unsigned? (Word.wrap (-months))).map (-·)

/-- Move by calendar months and then by a span to the nanosecond. -/
def shiftBy? (t : Instant) (months : Int) (lag : Lag) : Option Instant :=
  ((calendarMonths? months).bind t.addMonths?).bind (·.addNanos? lag.nanos)

/-- The same time so many months later, on the same day of the month or on its last one. -/
structure MonthsLater (t : Instant) (months : Int) (m : Instant) : Prop where
  month : Calendar.monthOf m.day = Calendar.monthOf t.day + months
  day : m.date.day = min t.date.day (Calendar.daysInMonth m.date.year m.date.month)
  time : m.secondOfDay = t.secondOfDay
  nanos : m.nanos = t.nanos

/-- The instant so many nanoseconds later. A leap second is counted with the second before it unless the move
    goes beyond its end, and a move of a second or more back ends outside of leap seconds as well. -/
def Later (t : Instant) (delta : Int) (u : Instant) : Prop :=
  if t.Regular then u.Regular ∧ u.count = t.count + delta
  else if 2000000000 ≤ t.nanos + delta then u.Regular ∧ u.count = t.count + delta - 1000000000
  else if delta ≤ -1000000000 then u.Regular ∧ u.count = t.count + delta
  else u.seconds = t.seconds ∧ u.nanos = t.nanos + delta

instance (t : Instant) (delta : Int) (u : Instant) : Decidable (t.Later delta u) :=
  inferInstanceAs (Decidable (ite _ _ _))

theorem ofNanos?_eq_some_iff {seconds nanos : Int} :
    ofNanos? seconds nanos = some u ↔ u.Regular ∧ u.count = seconds * 1000000000 + nanos := by
  rw [ofNanos?, ofSeconds?_eq_some_iff]
  unfold Regular count
  omega

/-- The whole seconds and the rest of a count of nanoseconds have its sign. -/
theorem wholeSeconds (delta : Int) :
    1000000000 * delta.tdiv 1000000000 + delta.tmod 1000000000 = delta ∧
      -1000000000 < delta.tmod 1000000000 ∧ delta.tmod 1000000000 < 1000000000 ∧
      (0 ≤ delta → 0 ≤ delta.tmod 1000000000) ∧ (delta ≤ 0 → delta.tmod 1000000000 ≤ 0) := by
  refine ⟨Int.mul_tdiv_add_tmod delta 1000000000, ?_, ?_, ?_, ?_⟩
  · exact Int.lt_tmod_of_pos delta (by decide)
  · exact Int.tmod_lt_of_pos delta (by decide)
  · exact Int.tmod_nonneg 1000000000
  · intro back
    have forth := Int.tmod_nonneg 1000000000 (Int.neg_nonneg_of_nonpos back)
    rw [Int.neg_tmod] at forth
    omega

theorem addNanos?_eq_some_iff {delta : Int} : t.addNanos? delta = some u ↔ t.Later delta u := by
  by_cases regular : t.Regular
  · rw [regular.addNanos?_eq_some_iff, Later, if_pos regular]
  · have bound := t.nanos_lt
    obtain ⟨sum, least, greatest, forth, back⟩ := wholeSeconds delta
    rw [Later, if_neg regular]
    unfold Regular at regular
    rw [addNanos?, if_neg regular]
    dsimp only
    generalize delta.tdiv 1000000000 = whole at *
    generalize delta.tmod 1000000000 = part at *
    by_cases beyond : 2000000000 ≤ t.nanos + delta
    · rw [if_pos (by omega), if_pos beyond, ofNanos?_eq_some_iff]
      unfold Regular count
      omega
    · rw [if_neg (by omega), if_neg beyond]
      by_cases before : delta ≤ -1000000000
      · rw [if_pos (by omega), if_pos before, ofNanos?_eq_some_iff]
        unfold Regular count
        omega
      · rw [if_neg (by omega), if_neg before, ofSeconds?_eq_some_iff]
        omega

theorem seconds_eq (t : Instant) : t.seconds = t.day * 86400 + t.secondOfDay ∧ t.secondOfDay < 86400 := by
  unfold day secondOfDay
  omega

/-- A move by months keeps the time of the day, and as much of the day of the month as there is. -/
theorem addMonths?_eq {behind : Nat} (date : t.date = Calendar.dateInMonth (Calendar.monthOf t.day) behind) :
    t.addMonths? months =
      ofSeconds? ((Calendar.monthStart (Calendar.monthOf t.day + months) +
        (min behind (Calendar.lengthOf (Calendar.monthOf t.day + months) - 1) : Nat)) * 86400 +
          t.secondOfDay) t.nanos := by
  have positive : 0 < Calendar.lengthOf (Calendar.monthOf t.day + months) := Calendar.daysInMonth_pos _
  have total : t.date.year * 12 + (t.date.month - 1 : Nat) + months = Calendar.monthOf t.day + months := rfl
  generalize Calendar.monthOf t.day + months = k at *
  rw [← ofDate?_dateInMonth (by omega) t.seconds_eq.2, addMonths?]
  simp only [total]
  congr 1
  rw [Calendar.dateInMonth, Calendar.firstOfMonth, date, Calendar.dateInMonth]
  congr 1
  unfold Calendar.lengthOf at positive ⊢
  dsimp only
  omega

theorem addMonths?_eq_some_iff : t.addMonths? months = some m ↔ t.MonthsLater months m := by
  obtain ⟨behind, -, -, date⟩ := Calendar.exists_behind t.day
  have positive : 0 < Calendar.lengthOf (Calendar.monthOf t.day + months) := Calendar.daysInMonth_pos _
  obtain ⟨sum, time⟩ := t.seconds_eq
  obtain ⟨sum', time'⟩ := m.seconds_eq
  obtain ⟨behind', inside', there, date'⟩ := Calendar.exists_behind m.day
  have day : t.date.day = behind + 1 := congrArg Date.day date
  have day' : m.date.day = behind' + 1 := congrArg Date.day date'
  have length : Calendar.daysInMonth m.date.year m.date.month =
      Calendar.lengthOf (Calendar.monthOf m.day) := by
    rw [Instant.date, date']
    rfl
  rw [addMonths?_eq date, ofSeconds?_eq_some_iff]
  constructor
  · rintro ⟨seconds, nanos⟩
    have moved : m.day = Calendar.monthStart (Calendar.monthOf t.day + months) +
        (min behind (Calendar.lengthOf (Calendar.monthOf t.day + months) - 1) : Nat) := by omega
    have month : Calendar.monthOf m.day = Calendar.monthOf t.day + months := by
      rw [moved, Calendar.monthOf_add (by omega)]
    refine ⟨month, ?_, by omega, nanos⟩
    rw [length, day, day']
    rw [month] at there ⊢
    omega
  · rintro ⟨month, days, same, nanos⟩
    rw [length, day, day'] at days
    rw [month] at there days
    refine ⟨?_, nanos⟩
    omega

/-- A move by whole seconds is one by their nanoseconds. -/
theorem addSeconds?_eq (t : Instant) (delta : Int) : t.addSeconds? delta = t.addNanos? (delta * 1000000000) := by
  refine Option.ext fun u => ?_
  rw [addNanos?_eq_some_iff, Later]
  have bound := t.nanos_lt
  by_cases regular : t.Regular
  · rw [regular.addSeconds?_eq_some_iff, if_pos regular]
  · rw [if_neg regular]
    unfold Regular at regular
    unfold addSeconds? Regular count
    by_cases still : delta = 0
    · rw [if_pos (.inr still), if_neg (by omega), if_neg (by omega), ofSeconds?_eq_some_iff]
      omega
    · rw [if_neg (by omega)]
      by_cases forth : 0 < delta
      · rw [if_pos forth, if_pos (by omega), ofSeconds?_eq_some_iff]
        omega
      · rw [if_neg forth, if_neg (by omega), if_pos (by omega), ofSeconds?_eq_some_iff]
        omega

theorem monthOf_range (t : Instant) : Calendar.minYear * 12 ≤ Calendar.monthOf t.day ∧
    Calendar.monthOf t.day < (Calendar.maxYear + 1) * 12 := by
  obtain ⟨first, beyond⟩ := monthStart_ends
  have least := t.seconds_ge
  have greatest := t.seconds_le
  obtain ⟨sum, time⟩ := t.seconds_eq
  rw [← Calendar.monthStart_le_iff, ← Int.not_le, ← Calendar.monthStart_le_iff]
  generalize Calendar.monthStart (Calendar.minYear * 12) = start at *
  generalize Calendar.monthStart ((Calendar.maxYear + 1) * 12) = stop at *
  simp only [minSeconds, maxSeconds] at first beyond
  omega

/-- What the calendar does not take as a number of months leads out of range anyway. -/
theorem bind_calendarMonths? (word : Word.Fits months) :
    (calendarMonths? months).bind t.addMonths? = t.addMonths? months := by
  have far : ¬ (-4294967295 ≤ months ∧ months ≤ 4294967295) → t.addMonths? months = none := by
    intro far
    refine Option.eq_none_iff_forall_not_mem.2 fun m hm => ?_
    have month := (addMonths?_eq_some_iff.1 hm).month
    have here := t.monthOf_range
    have there := m.monthOf_range
    simp only [Calendar.minYear, Calendar.maxYear] at here there
    omega
  unfold calendarMonths? Word.unsigned?
  by_cases forth : 0 ≤ months
  · rw [if_pos forth]
    by_cases taken : months ≤ 4294967295
    · rw [if_pos ⟨forth, taken⟩, Option.bind_some]
    · rw [if_neg (by omega), Option.bind_none, far (by omega)]
  · rw [if_neg forth]
    unfold Word.Fits at word
    by_cases taken : -4294967295 ≤ months
    · have exact : Word.wrap (-months) = -months := Word.wrap_of_fits (by unfold Word.Fits; omega)
      rw [exact, if_pos (by omega), Option.map_some, Option.bind_some, Int.neg_neg]
    · rw [if_neg (by unfold Word.wrap; omega), Option.map_none, Option.bind_none, far (by omega)]

theorem shift?_eq_shiftBy? (word : Word.Fits months) (delta : Int) :
    t.shift? months delta = t.shiftBy? months delta := by
  rw [shift?, shiftBy?, bind_calendarMonths? word]
  simp only [addSeconds?_eq, Lag.ofSeconds]

/-- A shift ends at the same time some months later, moved by the span, if there is such an instant. -/
theorem shiftBy?_eq_some_iff (word : Word.Fits months) {lag : Lag} :
    t.shiftBy? months lag = some u ↔ ∃ m, t.MonthsLater months m ∧ m.Later lag.nanos u := by
  simp only [shiftBy?, bind_calendarMonths? word, Option.bind_eq_some_iff, addMonths?_eq_some_iff,
    addNanos?_eq_some_iff]

end Instant

/-- Arithmetic on dates finishes, for grids exactly as long as the step can be taken. Then the points that are in
    range are reached, and a shift ends where it should if that is in range. Of 64 bits only one number of months
    has no negation. -/
theorem Calendar.arithmetic_finishes {text : String} {f : Frequency} (read : Frequency.ofText? text = some f)
    (t : Instant) {months : Int} (word : Word.Fits months) (lag : Lag) :
    (f.Finishes t ↔ f.Fits) ∧
      (f.Fits → ∀ b, f.OnGrid b →
        (∃ u, f.next b = .ok u ∧ f.First (b < ·) u) ∧ (b ≤ t → ∃ u, f.ceil t = .ok u ∧ f.First (t ≤ ·) u)) ∧
      (Word.Fits (-months) ∨ months = -9223372036854775808) ∧
      (∀ delta : Int, t.shift? months delta = t.shiftBy? months delta) ∧
      ∀ u, t.shiftBy? months lag = some u ↔ ∃ m, t.MonthsLater months m ∧ m.Later lag.nanos u := by
  refine ⟨⟨fun finishes => finishes.fits read, fun fits => fits.finishes t⟩, ?_, ?_, ?_, ?_⟩
  · intro fits b on
    exact ⟨Frequency.next_first fits on, Frequency.ceil_first fits on⟩
  · unfold Word.Fits at *
    omega
  · exact fun delta => Instant.shift?_eq_shiftBy? word delta
  · exact fun u => Instant.shiftBy?_eq_some_iff word

theorem Calendar.arithmetic_finishes_quarter :
    let t : Instant := { seconds := 1577837220, nanos := 0 }
    (Frequency.minutes 15).Finishes t ∧
      (∃ u, (Frequency.minutes 15).ceil t = .ok u ∧ (Frequency.minutes 15).First (t ≤ ·) u) ∧
      t.shiftBy? (-1) ⟨-1000000⟩ = some { seconds := 1575158819, nanos := 999000000 } := by
  intro t
  have read : Frequency.ofText? "15min" = some (.minutes 15) := by decide +kernel
  have word : Word.Fits (-1) := by decide
  have on : (Frequency.minutes 15).OnGrid { seconds := 1577836800, nanos := 0 } := by decide
  have fits : (Frequency.minutes 15).Fits := by
    rintro step ⟨⟩
    decide
  obtain ⟨finishes, reached, -, -, shifted⟩ := arithmetic_finishes read t word ⟨-1000000⟩
  refine ⟨finishes.2 fits, (reached fits _ on).2 (by decide), (shifted _).2 ?_⟩
  refine ⟨{ seconds := 1575158820, nanos := 0 }, ?_, by decide +kernel⟩
  constructor <;> decide +kernel

/-- There are frequencies whose step is longer than any span, or wraps around: to another step, so that points
    are found that are none, or to no step at all. -/
theorem Calendar.steps_overflow :
    let t : Instant := { seconds := 1577836800, nanos := 0 }
    (Frequency.ofText? "1000000000000D" = some (.days 1000000000000) ∧
        (Frequency.days 1000000000000).next t = .error .stepTooLong) ∧
      (Frequency.ofText? "307445734561825861min" = some (.minutes 307445734561825861) ∧
        (Frequency.minutes 307445734561825861).floor t = .ok { seconds := 1577836788, nanos := 0 } ∧
        ¬ (Frequency.minutes 307445734561825861).OnGrid { seconds := 1577836788, nanos := 0 }) ∧
      Frequency.ofText? "144115188075855872D" = some (.days 144115188075855872) ∧
        (Frequency.days 144115188075855872).floor t = .error .stepZero := by
  refine ⟨⟨?_, rfl⟩, ⟨?_, rfl, ?_⟩, ?_, rfl⟩
  all_goals decide +kernel

end SeriesLang
