/-! # Machine integers

The integers of the language are those of 64 bits with a sign. Arithmetic on the values of a formula is
exact or fails; counters and grid steps wrap around.
-/

namespace SeriesLang.Word

/-- Is the integer one of 64 bits with a sign? -/
def Fits (n : Int) : Prop :=
  -9223372036854775808 ≤ n ∧ n ≤ 9223372036854775807

instance (n : Int) : Decidable (Fits n) :=
  inferInstanceAs (Decidable (_ ∧ _))

/-- The integer itself, if it fits. -/
def ofInt? (n : Int) : Option Int :=
  if Fits n then some n else none

/-- The integer that fits and differs by a multiple of `2 ^ 64`. -/
def wrap (n : Int) : Int :=
  (n + 9223372036854775808) % 18446744073709551616 - 9223372036854775808

/-- What is kept is the same integer, and it fits. -/
theorem ofInt?_eq_some_iff {n m : Int} : ofInt? n = some m ↔ n = m ∧ Fits n := by
  unfold ofInt?
  split <;> simp_all

/-- A wrapped integer fits. -/
theorem fits_wrap (n : Int) : Fits (wrap n) := by
  unfold Fits wrap
  omega

/-- An integer that fits is left as it is by wrapping. -/
theorem wrap_of_fits {n : Int} (h : Fits n) : wrap n = n := by
  unfold Fits at h
  unfold wrap
  omega

end SeriesLang.Word
