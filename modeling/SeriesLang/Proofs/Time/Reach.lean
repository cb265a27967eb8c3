import SeriesLang.Proofs.Time.Grid

/-! # Reach of grids

From an instant the points of a grid are reached by arithmetic on seconds: up to the first point that is out of
range, and only as long as the step is no longer than a span can be. A longer step cannot be taken, or does not
even fit into the integers that it is computed with.
-/

namespace SeriesLang.Frequency

variable {f : Frequency} {t b c : Instant} {k l : Int}

/-- The first point of the grid that passes a test, or none if no point in range does. -/
def First (f : Frequency) (P : Instant → Prop) : Option Instant → Prop
  | none => ∀ g, f.OnGrid g → ¬ P g
  | some b => f.OnGrid b ∧ P b ∧ ∀ g, f.OnGrid g → P g → b ≤ g

theorem First.congr {P Q : Instant → Prop} {u : Option Instant} (h : f.First P u)
    (same : ∀ g, f.OnGrid g → (P g ↔ Q g)) : f.First Q u := by
  cases u with
  | none => exact fun g hg passes => h g hg ((same g hg).2 passes)
  | some b =>
      obtain ⟨on, passes, least⟩ := h
      exact ⟨on, (same b on).1 passes, fun g hg passes' => least g hg ((same g hg).2 passes')⟩

/-- The points from a number on begin with that number, unless it is out of range; then none follows. -/
theorem IsPoint.first (fits : f.Fits) (hb : f.IsPoint l b) (le : l ≤ k) :
    f.First (fun g => k ≤ f.index g.seconds) (Instant.ofSeconds? (f.point k) 0) := by
  cases made : Instant.ofSeconds? (f.point k) 0 with
  | none =>
      intro g hg later
      obtain ⟨m, hm⟩ := onGrid_iff.1 hg
      rw [hm.index fits] at later
      -- A later point in range would have all before it in range.
      obtain ⟨c, hc⟩ := hb.between fits hm le later
      have some := Instant.ofSeconds?_eq_some_iff.2 ⟨hc.seconds, hc.nanos⟩
      rw [made] at some
      cases some
  | some c =>
      obtain ⟨seconds, start⟩ := Instant.ofSeconds?_eq_some_iff.1 made
      have hc : f.IsPoint k c := ⟨start, seconds⟩
      exact ⟨onGrid_iff.2 ⟨k, hc⟩, Int.le_of_eq (hc.index fits).symm, fun g _ later => (hc.le_iff fits).2 later⟩

/-- From a point of the grid the first one after it is reached, if there is one. -/
theorem next_first (fits : f.Fits) (hb : f.OnGrid b) : ∃ u, f.next b = .ok u ∧ f.First (b < ·) u := by
  obtain ⟨k, point⟩ := onGrid_iff.1 hb
  refine ⟨_, next_point fits point, ?_⟩
  refine (point.first fits (Int.le_add_one (Int.le_refl k))).congr fun g hg => ?_
  obtain ⟨m, hm⟩ := onGrid_iff.1 hg
  rw [hm.index fits, hm.lt_iff fits, point.index fits]
  exact Int.add_one_le_iff

/-- If a point of the grid lies before an instant, the last one before it is in range. -/
theorem exists_below (fits : f.Fits) (hb : f.OnGrid b) (le : b ≤ t) :
    ∃ c, f.IsPoint (f.index t.seconds) c := by
  obtain ⟨k, point⟩ := onGrid_iff.1 hb
  have low := (point_le_point fits).2 ((point.le_iff fits).1 le)
  rw [← point.seconds] at low
  have high : f.point (f.index t.seconds) ≤ t.seconds := (point_le_iff fits).2 (Int.le_refl _)
  have least := b.seconds_ge
  have greatest := t.seconds_le
  exact ⟨⟨f.point (f.index t.seconds), 0, by omega, by omega, by omega⟩, rfl, rfl⟩

/-- From an instant behind some point of the grid the first one that is not before it is reached. -/
theorem ceil_first (fits : f.Fits) (hb : f.OnGrid b) (le : b ≤ t) :
    ∃ u, f.ceil t = .ok u ∧ f.First (t ≤ ·) u := by
  obtain ⟨c, hc⟩ := exists_below fits hb le
  have opened : f.ceil t = if c = t then .ok (some t) else f.next c := by
    rw [ceil, floor_eq fits hc]
    rfl
  by_cases same : c = t
  · subst same
    refine ⟨some c, by rw [opened, if_pos rfl], onGrid_iff.2 ⟨_, hc⟩, Instant.le_refl c, ?_⟩
    exact fun g _ later => later
  · obtain ⟨u, reached, first⟩ := next_first fits (onGrid_iff.2 ⟨_, hc⟩)
    refine ⟨u, by rw [opened, if_neg same, reached], first.congr fun g hg => ?_⟩
    obtain ⟨m, hm⟩ := onGrid_iff.1 hg
    -- No point lies between the one below the instant and the instant, which is none itself.
    rw [hm.lt_iff fits, hc.index fits, ← hm.lt_iff fits]
    refine ⟨Instant.le_of_lt, fun later => Instant.lt_of_not_le fun earlier => same ?_⟩
    cases Instant.le_antisymm later earlier
    rw [hm.index fits] at hc
    exact hc.unique hm

/-- The integers that are computed on the way to the point below an instant. -/
def computed (f : Frequency) (t : Instant) : List Int :=
  match f.spacing? with
  | some step => [step, t.seconds % step, t.seconds - t.seconds % step]
  | none => []

/-- The points around an instant are found, or found to be out of range, with integers that all fit into 64
    bits. -/
structure Finishes (f : Frequency) (t : Instant) : Prop where
  words : ∀ n ∈ f.computed t, Word.Fits n
  floor : ∃ b, f.floor t = .ok b
  next : ∃ u, f.next t = .ok u
  ceil : ∃ u, f.ceil t = .ok u

/-- A frequency that is read has a step of at least one second. -/
theorem spacing_pos {text : String} (h : ofText? text = some f) {step : Int}
    (spacing : f.spacing? = some step) : 0 < step := by
  unfold ofText? at h
  generalize Numeral.splitDigits (Text.trimBlanks text.toList) = parts at h
  obtain ⟨digits, unit⟩ := parts
  dsimp only at h
  generalize (if digits.isEmpty = true then 1 else Decimal.ofDigits digits) = count at h
  split at h
  · cases h
  · rename_i range
    have least : 0 < count := by omega
    split at h
    · split at h
      · cases h
        cases spacing
      · cases h
    all_goals
      cases h
    all_goals
      cases spacing
      omega

/-- With a step that can be taken everything finishes. -/
theorem Fits.finishes (fits : f.Fits) (t : Instant) : f.Finishes t := by
  have below : ∃ b, f.floor t = .ok b := by
    rw [Frequency.floor, fits.stepSeconds?]
    cases spacing : f.spacing? with
    | some step =>
        have positive := (fits step spacing).1
        exact ⟨_, if_neg (by omega)⟩
    | none => exact ⟨_, rfl⟩
  have after : ∀ t, ∃ u, f.next t = .ok u := by
    intro t
    rw [Frequency.next, fits.stepSeconds?]
    cases spacing : f.spacing? with
    | some step =>
        simp only [fits.span spacing]
        exact ⟨_, rfl⟩
    | none => exact ⟨_, rfl⟩
  refine ⟨?_, below, after t, ?_⟩
  · intro n hn
    have least := t.seconds_ge
    have greatest := t.seconds_le
    unfold computed at hn
    cases spacing : f.spacing? with
    | some step =>
        obtain ⟨positive, short⟩ := fits step spacing
        have rest := Int.emod_nonneg t.seconds (b := step) (by omega)
        have small := Int.emod_lt_of_pos t.seconds positive
        simp only [spacing, List.mem_cons, List.not_mem_nil, or_false] at hn
        simp only [Span.maxSeconds] at short
        unfold Word.Fits
        rcases hn with rfl | rfl | rfl <;> omega
    | none =>
        rw [spacing] at hn
        cases hn
  · obtain ⟨b, hb⟩ := below
    obtain ⟨u, hu⟩ := after b
    rw [Frequency.ceil, hb]
    by_cases same : b = t
    · exact ⟨some t, if_pos same⟩
    · exact ⟨u, (if_neg same).trans hu⟩

/-- With a longer step nothing does: it does not fit into 64 bits, or the next point is not found. -/
theorem Finishes.fits {text : String} (h : ofText? text = some f) (finishes : f.Finishes t) : f.Fits := by
  intro step spacing
  refine ⟨spacing_pos h spacing, ?_⟩
  have word : Word.Fits step := finishes.words step (by simp [computed, spacing])
  have exact : f.stepSeconds? = some step := by
    cases f with
    | monthStart => cases spacing
    | _ =>
        cases spacing
        exact congrArg some (Word.wrap_of_fits word)
  obtain ⟨u, hu⟩ := finishes.next
  simp only [Frequency.next, exact] at hu
  split at hu
  · rename_i span taken
    unfold Span.ofSeconds? at taken
    split at taken
    · rename_i short
      exact short.2
    · cases taken
  · cases hu

end SeriesLang.Frequency
