import SeriesLang.Time.Calendar

/-! # Instants

A timestamp without a zone, to the nanosecond. A leap second is the second before it with a count of
nanoseconds from `10 ^ 9` on, so instants are ordered by seconds and then by nanoseconds.
-/

namespace SeriesLang

/-- A numeral of seconds is not before the first year. -/
theorem Instant.numeral_ge (n : Nat) : -8334601228800 ≤ (OfNat.ofNat n : Int) :=
  Int.le_trans (by decide) (Int.natCast_nonneg n)

/-- A numeral of seconds is not after the last year if computing says so. -/
theorem Instant.numeral_le (n : Nat) (h : bif n.ble 8210266876799 then True else False) :
    (OfNat.ofNat n : Int) ≤ 8210266876799 := by
  cases small : n.ble 8210266876799 with
  | true => exact Int.ofNat_le.2 (Nat.le_of_ble_eq_true small)
  | false =>
      rw [small] at h
      exact h.elim

theorem Instant.zero_lt_nanos : 0 < 2000000000 := by
  decide

/-- A point in time between the start of year -262143 and the end of year 262142. The bounds of a
    numeral are a lemma applied to it, so an instant that is written out holds no proof of its own. -/
structure Instant where
  /-- Whole seconds from the start of 1970, leap seconds not counted. -/
  seconds : Int
  /-- Nanoseconds within the second; from `10 ^ 9` on within the leap second that follows it. -/
  nanos : Nat
  seconds_ge : -8334601228800 ≤ seconds := by first | exact Instant.numeral_ge _ | omega
  seconds_le : seconds ≤ 8210266876799 := by first | exact Instant.numeral_le _ trivial | omega
  nanos_lt : nanos < 2000000000 := by first | exact Instant.zero_lt_nanos | omega
deriving DecidableEq, Repr

namespace Instant

/-- The first second of the first year. -/
def minSeconds : Int := -8334601228800

/-- The last second of the last year. -/
def maxSeconds : Int := 8210266876799

/-- The instant with these seconds and nanoseconds, if it lies in range. -/
def ofSeconds? (seconds : Int) (nanos : Nat) : Option Instant :=
  if h : (-8334601228800 ≤ seconds ∧ seconds ≤ 8210266876799) ∧ nanos < 2000000000 then
    some ⟨seconds, nanos, h.1.1, h.1.2, h.2⟩
  else none

/-- Instants are ordered by time. -/
def Before (a b : Instant) : Prop :=
  a.seconds < b.seconds ∨ (a.seconds = b.seconds ∧ a.nanos < b.nanos)

instance : LT Instant := ⟨Before⟩

instance : LE Instant := ⟨fun a b => ¬ b < a⟩

instance (a b : Instant) : Decidable (a < b) :=
  inferInstanceAs (Decidable (_ ∨ _))

instance (a b : Instant) : Decidable (a ≤ b) :=
  inferInstanceAs (Decidable (¬ _))

instance : Max Instant := ⟨fun a b => if a ≤ b then b else a⟩

instance : Min Instant := ⟨fun a b => if a ≤ b then a else b⟩

/-- The day on which an instant lies, counted from the first of January 1970. -/
def day (t : Instant) : Int :=
  t.seconds / 86400

/-- The date on which an instant lies. -/
def date (t : Instant) : Date :=
  Calendar.dateOfDays t.day

/-- The seconds since midnight. -/
def secondOfDay (t : Instant) : Nat :=
  (t.seconds % 86400).toNat

/-- The instant on a date at a second of the day, if it lies in range. -/
def ofDate? (date : Date) (secondOfDay nanos : Nat) : Option Instant :=
  if Calendar.isValid date then ofSeconds? (Calendar.daysOfDate date * 86400 + secondOfDay) nanos
  else none

/-- Move by whole seconds. A move away from a leap second counts from the second after it when it
    goes back, and from the second before it when it goes forward. -/
def addSeconds? (t : Instant) (delta : Int) : Option Instant :=
  if t.nanos < 1000000000 ∨ delta = 0 then ofSeconds? (t.seconds + delta) t.nanos
  else if 0 < delta then ofSeconds? (t.seconds + delta) (t.nanos - 1000000000)
  else ofSeconds? (t.seconds + 1 + delta) (t.nanos - 1000000000)

/-- The instant so many nanoseconds behind the start of a second, or before it if they are negative. -/
def ofNanos? (seconds nanos : Int) : Option Instant :=
  ofSeconds? (seconds + nanos / 1000000000) (nanos % 1000000000).toNat

/-- Move by nanoseconds. A move by part of a second may end within a leap second or in the second before
    it; any other move away from a leap second counts as one by whole seconds does. -/
def addNanos? (t : Instant) (delta : Int) : Option Instant :=
  if t.nanos < 1000000000 then ofNanos? t.seconds (t.nanos + delta)
  else
    let whole := delta.tdiv 1000000000
    let part := delta.tmod 1000000000
    if 0 < whole ∨ (0 < part ∧ 2000000000 ≤ t.nanos + part) then
      ofNanos? t.seconds (t.nanos - 1000000000 + delta)
    else if whole < 0 then ofNanos? (t.seconds + 1) (t.nanos - 1000000000 + delta)
    else ofSeconds? t.seconds (t.nanos + part).toNat

/-- Move by calendar months at the same time of day; a day that the month lacks becomes its last
    one. -/
def addMonths? (t : Instant) (months : Int) : Option Instant :=
  let date := t.date
  let total := date.year * 12 + (date.month - 1 : Nat) + months
  let year := total / 12
  let month := (total % 12).toNat + 1
  ofDate? ⟨year, month, min date.day (Calendar.daysInMonth year month)⟩ t.secondOfDay t.nanos

/-- Midnight on the first day of the month. -/
def startOfMonth (t : Instant) : Instant :=
  (ofDate? ⟨t.date.year, t.date.month, 1⟩ 0 0).getD t

/-- The same time of day on the last day of the month. In the last month of all there is no next one
    to step back from, and the instant stays. -/
def endOfMonth (t : Instant) : Instant :=
  let date := t.date
  if date.year = Calendar.maxYear ∧ date.month = 12 then t
  else
    (ofDate? ⟨date.year, date.month, Calendar.daysInMonth date.year date.month⟩
      t.secondOfDay t.nanos).getD t

theorem lt_iff {a b : Instant} :
    a < b ↔ a.seconds < b.seconds ∨ (a.seconds = b.seconds ∧ a.nanos < b.nanos) :=
  Iff.rfl

/-- The order of instants is total. -/
theorem lt_trichotomy (a b : Instant) : a < b ∨ a = b ∨ b < a := by
  obtain ⟨s, n, _, _, _⟩ := a
  obtain ⟨s', n', _, _, _⟩ := b
  simp only [lt_iff, mk.injEq]
  omega

theorem lt_trans {a b c : Instant} (h : a < b) (k : b < c) : a < c := by
  simp only [lt_iff] at *
  omega

theorem lt_irrefl (a : Instant) : ¬ a < a := by
  simp only [lt_iff]
  omega

theorem ne_of_lt {a b : Instant} (h : a < b) : a ≠ b :=
  fun e => lt_irrefl b (e ▸ h)

theorem not_lt_of_lt {a b : Instant} (h : a < b) : ¬ b < a :=
  fun k => lt_irrefl a (lt_trans h k)

instance : Std.Trichotomous (α := Instant) (· < ·) :=
  Std.Trichotomous.mk (fun a b hab hba => by
    rcases lt_trichotomy a b with h | h | h
    · exact absurd h hab
    · exact h
    · exact absurd h hba)

instance : Trans (α := Instant) (· < ·) (· < ·) (· < ·) := ⟨lt_trans⟩

end Instant

end SeriesLang
