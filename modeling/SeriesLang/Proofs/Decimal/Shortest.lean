import SeriesLang.Proofs.Decimal.Reading

/-! # Shortest decimals

Seventeen digits tell a double from all others, so the decimal that is written for a double reads back to it.
-/

namespace SeriesLang

open Bits

namespace Decimal

variable {num den : ℕ}

/-- A fraction is at least the power of ten of its first digit. -/
theorem exponentOfFraction_le (hnum : 0 < num) (hden : 0 < den) :
    (10 : ℚ) ^ exponentOfFraction num den ≤ num / den := by
  have positive : (0 : ℚ) < den := by exact_mod_cast hden
  unfold exponentOfFraction
  split
  · rename_i whole
    have some : 0 < num / den := Nat.div_pos whole hden
    have low := pow_length_le some
    have length : 0 < (digitsOf (num / den)).length := Nat.length_toDigits_pos
    have exponent : ((digitsOf (num / den)).length : ℤ) - 1 = ((digitsOf (num / den)).length - 1 : ℕ) := by
      omega
    rw [exponent, zpow_natCast, le_div_iff₀ positive]
    exact_mod_cast (Nat.le_div_iff_mul_le hden).1 low
  · have high := lt_pow_length ((den + num - 1) / num - 1)
    have below : den ≤ num * 10 ^ (digitsOf ((den + num - 1) / num - 1)).length := by
      have ceil : den ≤ num * ((den + num - 1) / num) := by
        have := Nat.div_add_mod (den + num - 1) num
        have := Nat.mod_lt (den + num - 1) hnum
        omega
      exact ceil.trans (Nat.mul_le_mul_left num (by omega))
    simp only [zero_sub, zpow_neg, zpow_natCast]
    rw [inv_le_comm₀ (by positivity) (by positivity), inv_div, div_le_iff₀ (by positivity), mul_comm]
    exact_mod_cast below

/-- A fraction is counted in units of a power of ten. -/
theorem exists_scaled (num : ℕ) (hden : 0 < den) (last : ℤ) :
    ∃ a b : ℕ, (if last < 0 then (num * 10 ^ last.natAbs, den) else (num, den * 10 ^ last.natAbs)) = (a, b) ∧
      0 < b ∧ (num / den : ℚ) = a / b * 10 ^ last := by
  split
  · refine ⟨_, _, rfl, hden, ?_⟩
    have place : last = -(last.natAbs : ℤ) := by omega
    rw [place, zpow_neg, zpow_natCast, Int.natAbs_neg, Int.natAbs_natCast]
    push_cast
    field_simp
  · refine ⟨_, _, rfl, by positivity, ?_⟩
    have place : last = (last.natAbs : ℤ) := by omega
    rw [place, zpow_natCast, Int.natAbs_natCast]
    push_cast
    field_simp

/-- The whole units of a fraction fall short of it by the rest. -/
theorem abs_value_floor (a : ℕ) {b : ℕ} (hb : 0 < b) (last : ℤ) :
    |value ⟨a / b, last⟩ - a / b * 10 ^ last| = (a % b : ℕ) / b * 10 ^ last := by
  have apart : value ⟨a / b, last⟩ - a / b * 10 ^ last = -((a % b : ℕ) / b * 10 ^ last) := by
    rw [Rounding.div_eq_add_mod a hb, value]
    ring
  rw [apart, abs_neg, abs_of_nonneg (by positivity)]

/-- One unit more exceeds it by what the rest lacks of a unit. -/
theorem abs_value_succ (a : ℕ) {b : ℕ} (hb : 0 < b) (last : ℤ) :
    |value ⟨a / b + 1, last⟩ - a / b * 10 ^ last| = (1 - (a % b : ℕ) / b) * 10 ^ last := by
  have less : ((a % b : ℕ) / b : ℚ) ≤ 1 := by
    rw [div_le_one (by exact_mod_cast hb)]
    exact_mod_cast (Nat.mod_lt a hb).le
  have apart : value ⟨a / b + 1, last⟩ - a / b * 10 ^ last = (1 - (a % b : ℕ) / b) * 10 ^ last := by
    rw [Rounding.div_eq_add_mod a hb, value]
    push_cast
    ring
  rw [apart, abs_of_nonneg (mul_nonneg (sub_nonneg.2 less) (by positivity))]

/-- One of the two neighbours is at most half a unit away. -/
theorem exists_neighbour (tie : Tie) (hnum : 0 < num) (hden : 0 < den) {count : ℕ} (hcount : 0 < count) :
    ∃ d ∈ neighbours tie num den count, 0 < d.coefficient ∧
      |d.value - num / den| ≤ 10 ^ (exponentOfFraction num den - (count - 1)) / 2 := by
  have first := exponentOfFraction_le hnum hden
  have digits : exponentOfFraction num den - (count - 1) ≤ exponentOfFraction num den := by omega
  simp only [neighbours, Nat.pow_eq]
  generalize exponentOfFraction num den - (count - 1) = last at digits ⊢
  have unit : (0 : ℚ) < 10 ^ last := zpow_pos (by norm_num) last
  obtain ⟨a, b, scaled, hb, x⟩ := exists_scaled num hden last
  have positive : (0 : ℚ) < b := by exact_mod_cast hb
  have some : 0 < a / b := by
    have one : (1 : ℚ) ≤ a / b := by
      rw [← mul_le_mul_iff_left₀ unit, ← x, one_mul]
      exact (zpow_le_zpow_right₀ (by norm_num) digits).trans first
    rw [one_le_div positive] at one
    exact Nat.div_pos (by exact_mod_cast one) hb
  simp only [scaled, x]
  split
  · rename_i exact
    refine ⟨_, List.mem_singleton_self _, some, ?_⟩
    rw [abs_value_floor a hb, exact, Nat.cast_zero, zero_div, zero_mul]
    positivity
  · split
    · rename_i up
      have half : (1 / 2 : ℚ) ≤ (a % b : ℕ) / b := by
        have : b ≤ 2 * (a % b) := by omega
        have : (b : ℚ) ≤ 2 * (a % b : ℕ) := by exact_mod_cast this
        rw [le_div_iff₀ positive]
        linarith
      refine ⟨_, List.mem_cons_self, Nat.succ_pos _, ?_⟩
      have share : 1 - ((a % b : ℕ) / b : ℚ) ≤ 1 / 2 := by linarith
      rw [abs_value_succ a hb]
      calc (1 - ((a % b : ℕ) / b : ℚ)) * 10 ^ last ≤ 1 / 2 * 10 ^ last :=
            mul_le_mul_of_nonneg_right share unit.le
        _ = 10 ^ last / 2 := by ring
    · rename_i down
      have half : ((a % b : ℕ) / b : ℚ) ≤ 1 / 2 := by
        have : 2 * (a % b) ≤ b := by omega
        have : (2 * (a % b : ℕ) : ℚ) ≤ b := by exact_mod_cast this
        rw [div_le_iff₀ positive]
        linarith
      refine ⟨_, List.mem_cons_self, some, ?_⟩
      rw [abs_value_floor a hb]
      calc ((a % b : ℕ) / b : ℚ) * 10 ^ last ≤ 1 / 2 * 10 ^ last :=
            mul_le_mul_of_nonneg_right half unit.le
        _ = 10 ^ last / 2 := by ring

theorem stripZeros_value (fuel : ℕ) {d : Decimal} (hd : 0 < d.coefficient) :
    0 < (stripZeros fuel d).coefficient ∧ (stripZeros fuel d).value = d.value := by
  induction fuel generalizing d with
  | zero => exact ⟨hd, rfl⟩
  | succ fuel ih =>
      unfold stripZeros
      split
      · rename_i trailing
        have whole : d.coefficient = d.coefficient / 10 * 10 := by omega
        have some : 0 < d.coefficient / 10 := by omega
        obtain ⟨positive, same⟩ := @ih ⟨d.coefficient / 10, d.exponent + 1⟩ some
        refine ⟨positive, ?_⟩
        rw [same, value, value, zpow_add₀ (by norm_num)]
        nth_rewrite 2 [whole]
        push_cast
        ring
      · exact ⟨hd, rfl⟩

/-- Seventeen digits are enough for every double. -/
theorem exists_candidate (tie : Tie) {v : Float} {n : ℕ} {t : ℤ} (h : HasUnits v n t) {num den : ℕ}
    (fraction : fractionOf v = (num, den)) : ∃ d ∈ neighbours tie num den 17, d.toFloat = v := by
  have value : 0 < num ∧ 0 < den ∧ (num / den : ℚ) = n * 2 ^ t := by
    have same := h.fraction
    rw [fraction] at same
    split at same
    · obtain ⟨rfl, rfl⟩ := Prod.mk.inj same
      refine ⟨h.positive, by positivity, ?_⟩
      have place : t = -(t.natAbs : ℤ) := by omega
      nth_rewrite 2 [place]
      rw [zpow_neg, zpow_natCast, div_eq_mul_inv]
      push_cast
      rfl
    · obtain ⟨rfl, rfl⟩ := Prod.mk.inj same
      refine ⟨Nat.mul_pos h.positive (by positivity), by positivity, ?_⟩
      have place : t = (t.natAbs : ℤ) := by omega
      nth_rewrite 2 [place]
      rw [zpow_natCast]
      push_cast
      rw [div_one]
  obtain ⟨hnum, hden, value⟩ := value
  obtain ⟨d, hd, positive, near⟩ := exists_neighbour tie hnum hden (show 0 < 17 by decide)
  have first := exponentOfFraction_le hnum hden
  refine ⟨d, hd, toFloat_of_near h positive ?_⟩
  rw [← value]
  have some : (0 : ℚ) < num / den := div_pos (by exact_mod_cast hnum) (by exact_mod_cast hden)
  calc |d.value - num / den| ≤ 10 ^ (exponentOfFraction num den - ((17 : ℕ) - 1)) / 2 := near
    _ = 10 ^ exponentOfFraction num den / (2 * 10 ^ 16) := by
      rw [zpow_sub₀ (by norm_num)]
      norm_num
      ring
    _ ≤ num / den / (2 * 10 ^ 16) := div_le_div_of_nonneg_right first (by norm_num)
    _ < num / den / 2 ^ 54 := div_lt_div_of_pos_left some (by norm_num) (by norm_num)

/-- The decimal that is written for a double reads back to it. -/
theorem toFloat_shortest (tie : Tie) {v : Float} {n : ℕ} {t : ℤ} (h : HasUnits v n t) :
    0 < (shortest tie v).coefficient ∧ (shortest tie v).toFloat = v := by
  obtain ⟨⟨num, den⟩, fraction⟩ : ∃ p, fractionOf v = p := ⟨_, rfl⟩
  obtain ⟨d, hd, reads⟩ := exists_candidate tie h fraction
  unfold shortest
  rw [fraction]
  simp only
  generalize hcandidates : ((List.range 17).map (· + 1)).flatMap (neighbours tie num den) = candidates
  have candidate : d ∈ candidates := by
    rw [← hcandidates]
    exact List.mem_flatMap.2 ⟨17, by decide, hd⟩
  cases found : candidates.find? (fun d => d.toFloat.toBits == v.toBits) with
  | none =>
      have apart := List.find?_eq_none.1 found d candidate
      rw [reads] at apart
      simp at apart
  | some chosen =>
      have same : chosen.toFloat.toBits = v.toBits := by
        simpa using List.find?_some found
      have read : chosen.toFloat = v := toBits_inj same
      have positive : 0 < chosen.coefficient := by
        refine Nat.pos_of_ne_zero (fun none => h.ne_zero ?_)
        rw [← read, toFloat, if_pos none]
      obtain ⟨kept, value⟩ := stripZeros_value 17 positive
      exact ⟨kept, (toFloat_congr value).trans read⟩

end Decimal

end SeriesLang
