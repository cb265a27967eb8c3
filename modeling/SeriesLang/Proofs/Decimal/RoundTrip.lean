import SeriesLang.Proofs.Decimal.Shortest

/-! # Texts of doubles

Every finite double is written as a numeral that reads back to it.
-/

namespace SeriesLang

open Numeral Bits

namespace Decimal

/-- A finite double is a number, and not infinite. -/
theorem isNaN_isInf_of_isFinite {v : Float} (h : v.isFinite = true) :
    v.isNaN = false ∧ v.isInf = false := by
  simp only [Float.isFinite, Float.isNaN, Float.isInf, Float.Model.isFinite, Float.Model.isNaN,
    Float.Model.isInf] at h ⊢
  cases hu : v.toModel.unpack with
  | infinity sign =>
      rw [hu] at h
      cases h
  | notANumber =>
      rw [hu] at h
      cases h
  | zero sign => exact ⟨rfl, rfl⟩
  | finite sign mantissa exponent pos => exact ⟨rfl, rfl⟩

/-- The shortest decimal of a positive double is written with its value. -/
theorem spellsFloat_positive {layout : Layout} (point : layout.keepsPoint = true) (v : Float) :
    SpellsFloat (positiveChars layout v) (shortest layout.tie v).value := by
  generalize hd : shortest layout.tie v = d
  have nonempty := digitsOf_ne_nil d.coefficient
  have digits : ∀ c ∈ digitsOf d.coefficient, c.isDigit = true := fun _ => isDigit_of_mem_digitsOf
  unfold positiveChars
  rw [hd, point]
  simp only
  split
  · have spelled := spellsFloat_positional nonempty digits ((digitsOf d.coefficient).length + d.exponent)
    rw [ofDigits_digitsOf, add_sub_cancel_left] at spelled
    exact spelled
  · have spelled := spellsFloat_scientific nonempty digits
      ((digitsOf d.coefficient).length + d.exponent - 1)
    have place : ((digitsOf d.coefficient).length + d.exponent - 1 -
        ((digitsOf d.coefficient).length - 1) : ℤ) = d.exponent := by omega
    rw [ofDigits_digitsOf, place] at spelled
    exact spelled

/-- A finite double whose point is kept is written as a numeral that is not an integer and reads back to
    it. -/
theorem ofChars?_chars {layout : Layout} (point : layout.keepsPoint = true) {v : Float}
    (h : v.isFinite = true) : ∃ numeral, ofChars? (chars layout v) = some numeral ∧
      numeral.isInteger = false ∧ numeral.toFloat = v := by
  obtain ⟨notNaN, notInf⟩ := isNaN_isInf_of_isFinite h
  obtain ⟨s, E, M, parts⟩ := exists_parts h
  have written : ∃ (cs : List Char) (d : Decimal), chars layout v = signChars (isNegative v) ++ cs ∧
      SpellsFloat cs d.value ∧ d.toFloat = v.abs := by
    unfold chars
    simp only [notNaN, notInf, point, if_true, Bool.false_eq_true, if_false]
    split
    · rename_i zero
      have none : ofDigits (['0'] ++ ['0']) = 0 := by decide
      have digits : ∀ c ∈ ['0'], c.isDigit = true := List.all_eq_true.1 (by decide)
      have spelled : SpellsFloat (['0'] ++ '.' :: ['0']) (value ⟨0, 0⟩) := by
        refine spellsFloat_point (List.cons_ne_nil '0' []) digits digits ?_
        rw [none, value, Nat.cast_zero, zero_mul, zero_mul]
      exact ⟨_, ⟨0, 0⟩, rfl, spelled, (parts.abs.eq_zero zero).symm⟩
    · rename_i nonzero
      rcases parts.abs.zero_or_units with zero | ⟨n, t, units⟩
      · rw [zero] at nonzero
        exact absurd (by decide +kernel) nonzero
      · exact ⟨_, _, rfl, spellsFloat_positive point v.abs, (toFloat_shortest layout.tie units).2⟩
  obtain ⟨cs, d, layout, spelled, read⟩ := written
  obtain ⟨numeral, found, point, negative, value⟩ := spelled (isNegative v)
  refine ⟨numeral, layout ▸ found, point, ?_⟩
  rw [Numeral.toFloat, negative, toFloat_congr value, read]
  exact signed_abs h

end Decimal

end SeriesLang
