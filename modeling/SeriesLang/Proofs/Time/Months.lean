import SeriesLang.Time.Calendar

/-! # Months

The months are counted from the first one of the year 0. Each starts on a day, later ones on later days, and a
day lies in the month that starts last before it.
-/

namespace SeriesLang.Calendar

variable {k l days : Int}

/-- A year is as long as its months. -/
theorem daysBeforeYear_succ (year : Int) : daysBeforeYear (year + 1) =
    daysBeforeYear year + ((monthLengths (isLeapYear year)).foldr (· + ·) 0 : Nat) := by
  have total : ∀ leap, (monthLengths leap).foldr (· + ·) 0 = if leap then 366 else 365 := by decide
  rw [total]
  cases leap : isLeapYear year with
  | true =>
      simp only [isLeapYear, Bool.and_eq_true, Bool.or_eq_true, beq_iff_eq, bne_iff_ne] at leap
      simp only [daysBeforeYear, if_true]
      omega
  | false =>
      simp only [isLeapYear, Bool.and_eq_false_iff, Bool.or_eq_false_iff, beq_eq_false_iff_ne,
        bne_eq_false_iff_eq] at leap
      simp only [daysBeforeYear, Bool.false_eq_true, if_false]
      omega

/-- A day lies in its year. -/
theorem daysBeforeYear_yearOfDays (days : Int) : daysBeforeYear (yearOfDays days) ≤ days ∧
    days < daysBeforeYear (yearOfDays days + 1) := by
  simp only [yearOfDays]
  split
  · rename_i early
    refine ⟨?_, by rwa [Int.sub_add_cancel]⟩
    unfold daysBeforeYear
    omega
  · split
    · rename_i late
      refine ⟨late, ?_⟩
      unfold daysBeforeYear
      omega
    · omega

/-- A day of a year lies in one of the months. -/
theorem splitMonths_eq {lengths : List Nat} (month : Nat) {day : Nat} (h : day < lengths.foldr (· + ·) 0) :
    ∃ m < lengths.length,
      splitMonths lengths month day = (month + m, day - (lengths.take m).foldr (· + ·) 0 + 1) ∧
      (lengths.take m).foldr (· + ·) 0 ≤ day ∧ day < (lengths.take (m + 1)).foldr (· + ·) 0 := by
  induction lengths generalizing month day with
  | nil => exact absurd h (Nat.not_lt_zero day)
  | cons length rest ih =>
      rw [List.foldr_cons] at h
      rw [splitMonths]
      split
      · rename_i inside
        exact ⟨0, Nat.zero_lt_succ _, rfl, Nat.zero_le _, by simpa using inside⟩
      · rename_i later
        obtain ⟨m, hm, found, first, last⟩ :=
          ih (month + 1) (by omega : day - length < rest.foldr (· + ·) 0)
        refine ⟨m + 1, Nat.succ_lt_succ hm, ?_, ?_, ?_⟩
        · rw [found, List.take_succ_cons, List.foldr_cons, Nat.sub_sub, Nat.add_assoc,
            Nat.add_comm 1 m]
        · rw [List.take_succ_cons, List.foldr_cons]
          omega
        · rw [List.take_succ_cons, List.foldr_cons]
          omega

/-- The first day of a month. -/
def firstOfMonth (k : Int) : Date :=
  ⟨k / 12, (k % 12).toNat + 1, 1⟩

/-- The day on which a month starts, counted from the first of January 1970. -/
def monthStart (k : Int) : Int :=
  daysOfDate (firstOfMonth k)

/-- The month in which a day lies. -/
def monthOf (days : Int) : Int :=
  (dateOfDays days).year * 12 + ((dateOfDays days).month - 1 : Nat)

theorem monthStart_eq (k : Int) : monthStart k = daysBeforeYear (k / 12) +
    (((monthLengths (isLeapYear (k / 12))).take (k % 12).toNat).foldr (· + ·) 0 : Nat) - epochDays := by
  simp only [monthStart, firstOfMonth, daysOfDate, daysBeforeMonth, Nat.add_sub_cancel, Nat.sub_self,
    Int.natCast_zero, Int.add_zero]

theorem take_succ_monthLengths : ∀ leap, ∀ m < 12, ((monthLengths leap).take (m + 1)).foldr (· + ·) 0 =
    ((monthLengths leap).take m).foldr (· + ·) 0 + (monthLengths leap).getD m 0 := by
  decide

theorem daysInMonth_pos (k : Int) : 0 < daysInMonth (k / 12) ((k % 12).toNat + 1) := by
  have positive : ∀ leap, ∀ m < 12, 0 < (monthLengths leap).getD m 0 := by decide
  exact positive _ _ (by omega)

/-- A month ends where the next one starts. -/
theorem monthStart_succ (k : Int) :
    monthStart (k + 1) = monthStart k + daysInMonth (k / 12) ((k % 12).toNat + 1) := by
  have length := take_succ_monthLengths (isLeapYear (k / 12)) (k % 12).toNat (by omega)
  rw [monthStart_eq, monthStart_eq, daysInMonth, Nat.add_sub_cancel]
  by_cases last : k % 12 = 11
  · have year : (k + 1) / 12 = k / 12 + 1 := by omega
    have month : (k + 1) % 12 = 0 := by omega
    rw [year, month, daysBeforeYear_succ]
    rw [last] at length ⊢
    have whole : (monthLengths (isLeapYear (k / 12))).take (Int.toNat 11 + 1) =
        monthLengths (isLeapYear (k / 12)) := List.take_of_length_le (Nat.le_refl 12)
    rw [whole] at length
    rw [length]
    simp only [Int.toNat_zero, List.take_zero, List.foldr_nil]
    omega
  · have year : (k + 1) / 12 = k / 12 := by omega
    have month : ((k + 1) % 12).toNat = (k % 12).toNat + 1 := by omega
    rw [year, month, length]
    omega

theorem monthStart_lt (h : k < l) : monthStart k < monthStart l := by
  obtain ⟨n, rfl⟩ : ∃ n : Nat, l = k + 1 + n := ⟨(l - (k + 1)).toNat, by omega⟩
  induction n with
  | zero =>
      have length := daysInMonth_pos k
      rw [Int.natCast_zero, Int.add_zero, monthStart_succ]
      omega
  | succ n ih =>
      have length := daysInMonth_pos (k + 1 + n)
      have before := ih (by omega)
      rw [Int.natCast_succ, ← Int.add_assoc, monthStart_succ]
      omega

theorem monthStart_le (h : k ≤ l) : monthStart k ≤ monthStart l := by
  rcases Int.lt_or_eq_of_le h with h | rfl
  · exact Int.le_of_lt (monthStart_lt h)
  · exact Int.le_refl _

/-- A date says how many days lie between the start of the month and it. -/
theorem dateOfDays_eq (days : Int) :
    dateOfDays days = { firstOfMonth (monthOf days) with
      day := (days - monthStart (monthOf days)).toNat + 1 } ∧
    monthStart (monthOf days) ≤ days ∧ days < monthStart (monthOf days + 1) := by
  obtain ⟨first, last⟩ := daysBeforeYear_yearOfDays (days + epochDays)
  generalize year : yearOfDays (days + epochDays) = y at first last
  rw [daysBeforeYear_succ] at last
  have inside : (days + epochDays - daysBeforeYear y).toNat <
      (monthLengths (isLeapYear y)).foldr (· + ·) 0 := by omega
  obtain ⟨m, hm, split, start, stop⟩ := splitMonths_eq 1 inside
  have date : dateOfDays days = ⟨y, 1 + m, (days + epochDays - daysBeforeYear y).toNat -
      ((monthLengths (isLeapYear y)).take m).foldr (· + ·) 0 + 1⟩ := by
    simp only [dateOfDays, year, split]
  have twelve : m < 12 := hm
  have month : monthOf days = y * 12 + m := by
    rw [monthOf, date, Nat.add_sub_cancel_left]
  have quotient : monthOf days / 12 = y := by omega
  have rest : (monthOf days % 12).toNat = m := by omega
  have length := take_succ_monthLengths (isLeapYear y) m twelve
  have begins := monthStart_eq (monthOf days)
  rw [quotient, rest] at begins
  have ends := monthStart_succ (monthOf days)
  rw [quotient, rest, daysInMonth, Nat.add_sub_cancel] at ends
  refine ⟨?_, by omega, by omega⟩
  rw [date, firstOfMonth, quotient, rest, Nat.add_comm 1 m]
  congr 2
  omega

theorem monthStart_le_iff : monthStart k ≤ days ↔ k ≤ monthOf days := by
  obtain ⟨-, first, last⟩ := dateOfDays_eq days
  constructor
  · intro h
    by_cases later : monthOf days < k
    · have beyond := monthStart_le (k := monthOf days + 1) (l := k) later
      omega
    · omega
  · intro h
    exact Int.le_trans (monthStart_le h) first

theorem monthOf_monthStart (k : Int) : monthOf (monthStart k) = k := by
  obtain ⟨-, first, -⟩ := dateOfDays_eq (monthStart k)
  have after := monthStart_le_iff.1 (Int.le_refl (monthStart k))
  by_cases later : k < monthOf (monthStart k)
  · have beyond := monthStart_lt later
    omega
  · omega

theorem dateOfDays_monthStart (k : Int) : dateOfDays (monthStart k) = firstOfMonth k := by
  rw [(dateOfDays_eq (monthStart k)).1, monthOf_monthStart, Int.sub_self]
  rfl

/-- So many days behind the first one of a month. -/
def dateInMonth (k : Int) (behind : Nat) : Date :=
  { firstOfMonth k with day := behind + 1 }

/-- The number of days of a month that is counted from the first one of the year 0. -/
def lengthOf (k : Int) : Nat :=
  daysInMonth (k / 12) ((k % 12).toNat + 1)

theorem daysOfDate_dateInMonth (k : Int) (behind : Nat) :
    daysOfDate (dateInMonth k behind) = monthStart k + behind := by
  simp only [dateInMonth, monthStart, daysOfDate, firstOfMonth]
  omega

theorem monthOf_add {behind : Nat} (inside : behind < lengthOf k) :
    monthOf (monthStart k + behind) = k := by
  have ends := monthStart_succ k
  have after : monthStart k ≤ monthStart k + behind ↔ k ≤ _ := monthStart_le_iff
  have before : monthStart (k + 1) ≤ monthStart k + behind ↔ k + 1 ≤ _ := monthStart_le_iff
  unfold lengthOf at inside
  omega

theorem isValid_dateInMonth {behind : Nat} (inside : behind < lengthOf k) :
    isValid (dateInMonth k behind) = true ↔ minYear ≤ k / 12 ∧ k / 12 ≤ maxYear := by
  unfold lengthOf at inside
  rw [dateInMonth, firstOfMonth]
  simp only [isValid, Bool.and_eq_true, decide_eq_true_eq]
  omega

/-- A day lies so many days behind the first one of its month, less than the month has. -/
theorem exists_behind (days : Int) : ∃ behind, behind < lengthOf (monthOf days) ∧
    days = monthStart (monthOf days) + behind ∧ dateOfDays days = dateInMonth (monthOf days) behind := by
  obtain ⟨date, first, last⟩ := dateOfDays_eq days
  rw [monthStart_succ] at last
  refine ⟨(days - monthStart (monthOf days)).toNat, ?_, by omega, date⟩
  unfold lengthOf
  omega

end SeriesLang.Calendar
