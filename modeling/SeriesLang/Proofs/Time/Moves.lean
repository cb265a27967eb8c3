import SeriesLang.Time.Span

/-! # Moving instants

Outside of leap seconds an instant is its count of nanoseconds, and a move adds to that count. A date from
which on a value may be known stands a lag before it on the same scale.
-/

namespace SeriesLang.Instant

variable {a b c t u d : Instant} {lag : Lag}

instance : Std.Asymm (α := Instant) (· < ·) :=
  Std.Asymm.mk (fun _ _ => not_lt_of_lt)

theorem le_refl (a : Instant) : a ≤ a :=
  lt_irrefl a

theorem le_trans (h : a ≤ b) (k : b ≤ c) : a ≤ c := by
  intro hlt
  rcases lt_trichotomy a b with hab | rfl | hba
  · exact k (lt_trans hlt hab)
  · exact k hlt
  · exact h hba

theorem le_of_lt (h : a < b) : a ≤ b :=
  not_lt_of_lt h

theorem lt_of_not_le (h : ¬ a ≤ b) : b < a :=
  Decidable.of_not_not h

/-- The instant lies in no leap second. -/
def Regular (t : Instant) : Prop :=
  t.nanos < 1000000000

instance (t : Instant) : Decidable t.Regular :=
  inferInstanceAs (Decidable (_ < _))

/-- The nanoseconds from the start of 1970. -/
def count (t : Instant) : Int :=
  t.seconds * 1000000000 + t.nanos

theorem Regular.lt_iff_count (ha : a.Regular) (hb : b.Regular) : a < b ↔ a.count < b.count := by
  simp only [lt_iff, count, Regular] at *
  omega

theorem Regular.le_iff_count (ha : a.Regular) (hb : b.Regular) : a ≤ b ↔ a.count ≤ b.count := by
  show ¬ b < a ↔ _
  rw [hb.lt_iff_count ha]
  omega

theorem Regular.addNanos?_eq_some_iff (ht : t.Regular) {delta : Int} :
    t.addNanos? delta = some u ↔ u.Regular ∧ u.count = t.count + delta := by
  obtain ⟨seconds, nanos, least, greatest, bound⟩ := u
  simp only [Regular, count] at *
  rw [addNanos?, if_pos ht, ofNanos?, ofSeconds?]
  split
  · simp only [Option.some.injEq, mk.injEq]
    omega
  · simp only [reduceCtorEq, false_iff]
    omega

theorem Regular.addNanos?_eq_none (ht : t.Regular) {delta : Int} (h : t.addNanos? delta = none) :
    t.count + delta < minSeconds * 1000000000 ∨ (maxSeconds + 1) * 1000000000 ≤ t.count + delta := by
  simp only [Regular, count, minSeconds, maxSeconds] at *
  rw [addNanos?, if_pos ht, ofNanos?, ofSeconds?] at h
  split at h
  · cases h
  · omega

theorem Regular.count_lt (ht : t.Regular) :
    minSeconds * 1000000000 ≤ t.count ∧ t.count < (maxSeconds + 1) * 1000000000 := by
  obtain ⟨seconds, nanos, least, greatest, bound⟩ := t
  simp only [Regular, count, minSeconds, maxSeconds] at *
  omega

/-- So does a move by whole seconds. -/
theorem Regular.addSeconds?_eq_some_iff (ht : t.Regular) {delta : Int} :
    t.addSeconds? delta = some u ↔ u.Regular ∧ u.count = t.count + delta * 1000000000 := by
  obtain ⟨seconds, nanos, least, greatest, bound⟩ := u
  simp only [Regular, count] at *
  rw [addSeconds?, if_pos (.inl ht), ofSeconds?]
  split
  · simp only [Option.some.injEq, mk.injEq]
    omega
  · simp only [reduceCtorEq, false_iff]
    omega

/-- Moves forth and back cancel out. -/
theorem Regular.addSeconds?_neg (ht : t.Regular) (hu : u.Regular) {delta : Int} :
    u.addSeconds? (-delta) = some t ↔ t.addSeconds? delta = some u := by
  rw [hu.addSeconds?_eq_some_iff, ht.addSeconds?_eq_some_iff, and_iff_right ht, and_iff_right hu]
  omega

/-- A revision of some date counts at an instant if it was made at least a lag before. -/
def Visible (lag : Lag) (t d : Instant) : Prop :=
  ∃ low, d.after? lag = some low ∧ low ≤ t

theorem visible_iff (forward : 0 ≤ lag.nanos) (ht : t.Regular) (hd : d.Regular) :
    Visible lag t d ↔ ∃ known, t.before? lag = some known ∧ d ≤ known := by
  constructor
  · rintro ⟨low, hlow, hle⟩
    obtain ⟨regular, sum⟩ := hd.addNanos?_eq_some_iff.1 hlow
    rw [regular.le_iff_count ht] at hle
    cases hknown : t.before? lag with
    | none =>
        have range := ht.addNanos?_eq_none hknown
        have above := ht.count_lt
        have below := hd.count_lt
        omega
    | some known =>
        obtain ⟨regular', sum'⟩ := ht.addNanos?_eq_some_iff.1 hknown
        exact ⟨known, rfl, (hd.le_iff_count regular').2 (by omega)⟩
  · rintro ⟨known, hknown, hle⟩
    obtain ⟨regular, sum⟩ := ht.addNanos?_eq_some_iff.1 hknown
    rw [hd.le_iff_count regular] at hle
    cases hlow : d.after? lag with
    | none =>
        have range := hd.addNanos?_eq_none hlow
        have above := ht.count_lt
        have below := hd.count_lt
        omega
    | some low =>
        obtain ⟨regular', sum'⟩ := hd.addNanos?_eq_some_iff.1 hlow
        exact ⟨low, hlow, (regular'.le_iff_count ht).2 (by omega)⟩

/-- Earlier revisions count where later ones do. -/
theorem Visible.earlier (forward : 0 ≤ lag.nanos) (hd : d.Regular) (hu : u.Regular)
    (h : Visible lag t d) (hle : u ≤ d) : Visible lag t u := by
  obtain ⟨low, hlow, hlt⟩ := h
  obtain ⟨regular, sum⟩ := hd.addNanos?_eq_some_iff.1 hlow
  rw [hu.le_iff_count hd] at hle
  cases hfirst : u.after? lag with
  | none =>
      have range := hu.addNanos?_eq_none hfirst
      have above := regular.count_lt
      have below := hu.count_lt
      omega
  | some first =>
      obtain ⟨regular', sum'⟩ := hu.addNanos?_eq_some_iff.1 hfirst
      exact ⟨first, hfirst, le_trans ((regular'.le_iff_count regular).2 (by omega)) hlt⟩

instance (lag : Lag) (t d : Instant) : Decidable (Visible lag t d) :=
  match h : d.after? lag with
  | none => .isFalse (by rintro ⟨low, hlow, -⟩; rw [h] at hlow; cases hlow)
  | some low => decidable_of_iff (low ≤ t) (by simp [Visible, h])

end SeriesLang.Instant
