import Mathlib.Data.Int.Log
import Mathlib.Data.Rat.Floor
import Mathlib.Tactic.Linarith
import Mathlib.Tactic.Ring
import Mathlib.Tactic.FieldSimp
import Mathlib.Tactic.Positivity
import Mathlib.Tactic.NormNum

/-! # Rounding

What the arithmetic of doubles does with a positive rational number: it takes the nearest multiple of a
power of two that leaves at most 53 bits, and of two equally near ones the even one. So a result depends
on the number only, and not on how it was come by.
-/

namespace SeriesLang

open Float.Model Float.Model.UnpackedFloat

namespace Rounding

/-- The whole number `n` is nearest to `x`, or it is even and as near as the other one. -/
def Nearest (x : ℚ) (n : ℕ) : Prop :=
  |x - n| < 1 / 2 ∨ (|x - n| = 1 / 2 ∧ n % 2 = 0)

theorem Nearest.le_half {x : ℚ} {n : ℕ} (h : Nearest x n) : |x - n| ≤ 1 / 2 := by
  rcases h with near | ⟨tie, -⟩
  · exact near.le
  · exact tie.le

theorem Nearest.unique {x : ℚ} {n n' : ℕ} (h : Nearest x n) (h' : Nearest x n') : n = n' := by
  have apart : ∀ {m m' : ℕ}, Nearest x m → Nearest x m' → ¬ m < m' := by
    intro m m' hm hm' hlt
    have step : (m : ℚ) + 1 ≤ m' := by exact_mod_cast hlt
    have low := abs_le.1 hm.le_half
    have high := abs_le.1 hm'.le_half
    have middle : x = m + 1 / 2 := by linarith
    have next : (m' : ℚ) = m + 1 := by linarith
    have even : m % 2 = 0 ∧ m' % 2 = 0 := by
      constructor
      · rcases hm with near | ⟨-, even⟩
        · have := abs_lt.1 near
          linarith
        · exact even
      · rcases hm' with near | ⟨-, even⟩
        · have := abs_lt.1 near
          linarith
        · exact even
    have successor : m' = m + 1 := by exact_mod_cast next
    omega
  exact le_antisymm (not_lt.1 (apart h' h)) (not_lt.1 (apart h h'))

/-- The number that a mantissa and the bit behind it write. -/
def lower (em : ExtendedMantissa) : ℚ :=
  em.mantissa + (if em.roundBit then 1 / 2 else 0)

theorem lower_even (m : ℕ) (sticky : Bool) : lower ⟨m, false, sticky⟩ = m := by
  simp [lower]

theorem lower_half (m : ℕ) (sticky : Bool) : lower ⟨m, true, sticky⟩ = m + 1 / 2 := by
  simp [lower]

/-- What a mantissa and its two further bits say about the number that they stand for. -/
structure Represents (em : ExtendedMantissa) (x : ℚ) : Prop where
  le : lower em ≤ x
  lt : x < lower em + 1 / 2
  exact : em.stickyBit = false ↔ x = lower em

variable {em : ExtendedMantissa} {x q : ℚ} {m n : ℕ} {e : ℤ}

theorem Represents.mantissa_le (h : Represents em x) : (em.mantissa : ℚ) ≤ x := by
  have low := h.le
  unfold lower at low
  split at low <;> linarith

theorem Represents.lt_succ (h : Represents em x) : x < em.mantissa + 1 := by
  have high := h.lt
  unfold lower at high
  split at high <;> linarith

theorem Represents.nearest (h : Represents em x) : Nearest x em.roundedMantissa := by
  obtain ⟨le, lt, exact⟩ := h
  obtain ⟨m, round, sticky⟩ := em
  cases round with
  | false =>
      rw [lower_even] at le lt
      have kept : ExtendedMantissa.roundedMantissa ⟨m, false, sticky⟩ = m := by
        cases sticky <;> rfl
      left
      rw [kept, abs_lt]
      constructor <;> linarith
  | true =>
      rw [lower_half] at le lt exact
      cases sticky with
      | false =>
          have tie : x = m + 1 / 2 := exact.1 rfl
          right
          show |x - (m + m % 2 : ℕ)| = 1 / 2 ∧ (m + m % 2) % 2 = 0
          have parity : m % 2 = 0 ∨ m % 2 = 1 := by omega
          refine ⟨?_, by omega⟩
          rcases parity with even | odd
          · rw [even, tie, Nat.add_zero, add_sub_cancel_left]
            norm_num
          · have half : x - (m + 1 : ℕ) = -(1 / 2) := by
              push_cast
              linarith
            rw [odd, half]
            norm_num
      | true =>
          have above : m + 1 / 2 < x := lt_of_le_of_ne le (fun same => by simp [← same] at exact)
          left
          show |x - (m + 1 : ℕ)| < 1 / 2
          push_cast
          rw [abs_lt]
          constructor <;> linarith

theorem lower_shiftRightOne : lower em.shiftRightOne = (em.mantissa : ℚ) / 2 := by
  have split : (em.mantissa : ℚ) = 2 * (em.mantissa / 2 : ℕ) + (em.mantissa % 2 : ℕ) := by
    exact_mod_cast (Nat.div_add_mod em.mantissa 2).symm
  have parity : em.mantissa % 2 = 0 ∨ em.mantissa % 2 = 1 := by omega
  rcases parity with even | odd
  · simp only [lower, ExtendedMantissa.shiftRightOne, even]
    rw [even] at split
    rw [split]
    simp
  · simp only [lower, ExtendedMantissa.shiftRightOne, odd]
    rw [odd] at split
    rw [split]
    simp
    ring

theorem Represents.shiftRightOne (h : Represents em x) : Represents em.shiftRightOne (x / 2) where
  le := by
    have := h.mantissa_le
    rw [lower_shiftRightOne]
    linarith
  lt := by
    have := h.lt_succ
    rw [lower_shiftRightOne]
    linarith
  exact := by
    rw [lower_shiftRightOne]
    show (em.roundBit || em.stickyBit) = false ↔ _
    rw [Bool.or_eq_false_iff, h.exact]
    have low := h.le
    cases round : em.roundBit with
    | false => simp [lower, round]
    | true =>
        have apart : x / 2 ≠ em.mantissa / 2 := by
          intro same
          simp only [lower, round, if_true] at low
          linarith
        simp [apart]

/-- A shift to the right keeps what the bits say. -/
theorem Represents.shiftRight (h : Represents em x) (k : ℕ) : Represents (em >>> k) (x / 2 ^ k) := by
  show Represents (k.repeat ExtendedMantissa.shiftRightOne em) _
  induction k with
  | zero => simpa [Nat.repeat] using h
  | succ k ih =>
      have next := ih.shiftRightOne
      rw [div_div, ← pow_succ] at next
      exact next

theorem represents_exact (m : ℕ) :
    Represents (ExtendedMantissa.ofMantissaAndAccuracy m .exact) m := by
  constructor <;> simp [lower, ExtendedMantissa.ofMantissaAndAccuracy]

theorem div_eq_add_mod (num : ℕ) {den : ℕ} (hden : 0 < den) :
    (num / den : ℚ) = (num / den : ℕ) + (num % den : ℕ) / den := by
  have positive : (0 : ℚ) < den := by exact_mod_cast hden
  have split : (num : ℚ) = den * (num / den : ℕ) + (num % den : ℕ) := by
    exact_mod_cast (Nat.div_add_mod num den).symm
  rw [split]
  field_simp

/-- A quotient, its remainder and the divisor tell enough about the fraction. -/
theorem represents_fraction (num : ℕ) {den : ℕ} (hden : 0 < den) :
    Represents (ExtendedMantissa.ofMantissaAndAccuracy (num / den)
      (accuracyOfFraction (num % den) den)) (num / den : ℚ) := by
  have positive : (0 : ℚ) < den := by exact_mod_cast hden
  have below : num % den < den := Nat.mod_lt _ hden
  rw [div_eq_add_mod num hden]
  generalize num / den = k, num % den = r at below ⊢
  unfold accuracyOfFraction
  split
  · rename_i zero
    rw [zero, Nat.cast_zero, zero_div, add_zero]
    exact represents_exact k
  · rename_i inexact
    have part : (0 : ℚ) < r / den := div_pos (by exact_mod_cast Nat.pos_of_ne_zero inexact) positive
    have less : (r / den : ℚ) < 1 := (div_lt_one positive).2 (by exact_mod_cast below)
    cases order : compare (2 * r) den with
    | lt =>
        have half : ((2 * r : ℕ) : ℚ) < den := by exact_mod_cast Nat.compare_eq_lt.1 order
        have less : (r / den : ℚ) < 1 / 2 := by
          rw [div_lt_iff₀ positive]
          push_cast at half
          linarith
        show Represents ⟨k, false, true⟩ _
        constructor
        · rw [lower_even]
          linarith
        · rw [lower_even]
          linarith
        · rw [lower_even]
          simp [part.ne']
    | eq =>
        have half : ((2 * r : ℕ) : ℚ) = den := by exact_mod_cast Nat.compare_eq_eq.1 order
        have same : (r / den : ℚ) = 1 / 2 := by
          rw [div_eq_iff positive.ne', ← half]
          push_cast
          ring
        show Represents ⟨k, true, false⟩ _
        rw [same]
        constructor <;> simp [lower_half]
    | gt =>
        have half : (den : ℚ) < (2 * r : ℕ) := by exact_mod_cast Nat.compare_eq_gt.1 order
        have more : (1 / 2 : ℚ) < r / den := by
          rw [lt_div_iff₀ positive]
          push_cast at half
          linarith
        show Represents ⟨k, true, true⟩ _
        constructor
        · rw [lower_half]
          linarith
        · rw [lower_half]
          linarith
        · rw [lower_half]
          simpa using more.ne'

/-- The exponent of the last bit that is kept of a number. -/
def grain (q : ℚ) : ℤ :=
  max (Int.log 2 q - 52) (-1074)

theorem targetExponent_binary64 (e : ℤ) : Format.binary64.targetExponent e = max (e - 53) (-1074) := rfl

theorem targetExponent_eq (m : ℕ) (e : ℤ) :
    Format.binary64.targetExponent (totalExponent m e) = max (m.log2 + e - 52) (-1074) := by
  rw [targetExponent_binary64, totalExponent]
  omega

theorem log_eq {b : ℕ} {k : ℤ} (hb : 1 < b) (hq : 0 < q) (low : (b : ℚ) ^ k ≤ q)
    (high : q < (b : ℚ) ^ (k + 1)) : Int.log b q = k := by
  have least := (Int.zpow_le_iff_le_log hb hq).1 low
  have greatest := (Int.lt_zpow_iff_log_lt hb hq).1 high
  omega

theorem log_eq_log2 (hm : 0 < m) (low : (m : ℚ) ≤ q / 2 ^ e) (high : q / 2 ^ e < m + 1) :
    Int.log 2 q = m.log2 + e := by
  have unit : (0 : ℚ) < 2 ^ e := zpow_pos (by norm_num) e
  have hq : 0 < q := by
    have : (0 : ℚ) < q / 2 ^ e := lt_of_lt_of_le (by exact_mod_cast hm) low
    exact (div_pos_iff_of_pos_right unit).1 this
  have least : (2 : ℚ) ^ m.log2 ≤ m := by exact_mod_cast Nat.log2_self_le hm.ne'
  have greatest : (m : ℚ) + 1 ≤ 2 ^ (m.log2 + 1) := by exact_mod_cast Nat.lt_log2_self (n := m)
  apply log_eq (by decide) hq
  · calc ((2 : ℕ) : ℚ) ^ (m.log2 + e) = 2 ^ m.log2 * 2 ^ e := by
          rw [zpow_add₀ (by norm_num), zpow_natCast, Nat.cast_ofNat]
      _ ≤ m * 2 ^ e := mul_le_mul_of_nonneg_right least unit.le
      _ ≤ q := (le_div_iff₀ unit).1 low
  · calc q < (m + 1) * 2 ^ e := (div_lt_iff₀ unit).1 high
      _ ≤ 2 ^ (m.log2 + 1) * 2 ^ e := mul_le_mul_of_nonneg_right greatest unit.le
      _ = ((2 : ℕ) : ℚ) ^ ((m.log2 + e : ℤ) + 1) := by
        rw [Nat.cast_ofNat, ← zpow_natCast, ← zpow_add₀ (by norm_num)]
        congr 1
        push_cast
        ring

/-- So many units of a size: `2 ^ 53` of them are half as many of the next size. -/
def units (n : ℕ) (t : ℤ) : UnpackedFloat :=
  if h : n = 0 then .zero .positive
  else if n < 2 ^ 53 then .finite .positive n t (Nat.pos_of_ne_zero h)
  else .finite .positive (2 ^ 52) (t + 1) (by decide)

/-- The double is the nearest one to the number, as long as it is not too large. -/
def Rounded (q : ℚ) (f : UnpackedFloat) : Prop :=
  ∃ n, Nearest (q / 2 ^ grain q) n ∧ f = units n (grain q)

theorem Rounded.unique {f f' : UnpackedFloat} (h : Rounded q f) (h' : Rounded q f') : f = f' := by
  obtain ⟨n, near, rfl⟩ := h
  obtain ⟨n', near', rfl⟩ := h'
  rw [near.unique near']

theorem neg_le_grain (q : ℚ) : -1074 ≤ grain q :=
  le_max_right _ _

theorem lt_grain (q : ℚ) : q / 2 ^ grain q < 2 ^ 53 := by
  have unit : (0 : ℚ) < 2 ^ grain q := zpow_pos (by norm_num) _
  have coarse : Int.log 2 q + 1 ≤ 53 + grain q := by
    have := le_max_left (Int.log 2 q - 52) (-1074)
    rw [grain]
    omega
  rw [div_lt_iff₀ unit]
  calc q < ((2 : ℕ) : ℚ) ^ (Int.log 2 q + 1) := Int.lt_zpow_succ_log_self (by decide) q
    _ ≤ 2 ^ (53 + grain q) := by
      rw [Nat.cast_ofNat]
      exact zpow_le_zpow_right₀ (by norm_num) coarse
    _ = 2 ^ 53 * 2 ^ grain q := by
      rw [zpow_add₀ (by norm_num)]
      norm_num

theorem Nearest.le_of_lt {b : ℕ} (h : Nearest x n) (below : x < b) : n ≤ b := by
  have low := (abs_le.1 h.le_half).1
  by_contra above
  have : (b : ℚ) + 1 ≤ n := by exact_mod_cast Nat.lt_of_not_le above
  linarith

theorem mantissa_ofMantissaAndAccuracy (m : ℕ) (accuracy : Accuracy) :
    (ExtendedMantissa.ofMantissaAndAccuracy m accuracy).mantissa = m := by
  cases accuracy with
  | exact => rfl
  | inexact order => cases order <;> rfl

theorem shiftToTargetExponent_eq {t : ℤ} {accuracy : Accuracy} (target :
    Format.binary64.targetExponent (totalExponent m e) = t) (fine : e ≤ t) :
    shiftToTargetExponent Format.binary64 m e accuracy =
      (ExtendedMantissa.ofMantissaAndAccuracy m accuracy >>> (t - e).toNat, t) := by
  simp only [shiftToTargetExponent, shiftToExponent, target, Prod.mk.injEq, true_and]
  omega

/-- Where the exponent is at most the one that is wanted, it is left alone. -/
theorem shiftToTargetExponent_le {accuracy : Accuracy}
    (le : Format.binary64.targetExponent (totalExponent m e) ≤ e) :
    shiftToTargetExponent Format.binary64 m e accuracy =
      (ExtendedMantissa.ofMantissaAndAccuracy m accuracy, e) := by
  have none : (Format.binary64.targetExponent (totalExponent m e) - e).toNat = 0 := by omega
  simp only [shiftToTargetExponent, shiftToExponent, none, Nat.cast_zero, add_zero]
  rfl

/-- The second shift takes care of a carry. -/
theorem shift_units {t : ℤ} (hn : n ≤ 2 ^ 53) (ht : -1074 ≤ t) :
    let shifted := shiftToTargetExponent Format.binary64 n t .exact
    (if h : shifted.1.mantissa = 0 then .zero .positive
      else .finite .positive shifted.1.mantissa shifted.2 (Nat.pos_of_ne_zero h)) = units n t := by
  intro shifted
  rcases Nat.lt_or_ge n (2 ^ 53) with hlt | hge
  · have short : n.log2 ≤ 52 := by
      rcases Nat.eq_zero_or_pos n with rfl | hpos
      · simp
      · exact Nat.le_of_lt_succ ((Nat.log2_lt hpos.ne').2 hlt)
    have still : shifted = (ExtendedMantissa.ofMantissaAndAccuracy n .exact, t) := by
      apply shiftToTargetExponent_le
      rw [targetExponent_eq]
      omega
    have kept : units n t = if h : n = 0 then .zero .positive
        else .finite .positive n t (Nat.pos_of_ne_zero h) := by
      by_cases h : n = 0
      · rw [units, dif_pos h, dif_pos h]
      · rw [units, dif_neg h, dif_neg h, if_pos hlt]
    rw [still, kept]
    rfl
  · have carry : n = 2 ^ 53 := by omega
    have target : Format.binary64.targetExponent (totalExponent n t) = t + 1 := by
      rw [targetExponent_eq, carry, Nat.log2_two_pow]
      omega
    have moved : shifted = (⟨2 ^ 52, false, false⟩, t + 1) := by
      have once : (t + 1 - t).toNat = 1 := by omega
      show shiftToTargetExponent Format.binary64 n t .exact = _
      rw [shiftToTargetExponent_eq target (by omega), once, carry]
      rfl
    have kept : units n t = .finite .positive (2 ^ 52) (t + 1) (by decide) := by
      rw [carry]
      rfl
    rw [moved, kept]
    rfl

/-- Rounding is exact in what the mantissa and its accuracy stand for. -/
theorem rounded_roundWithAccuracy {accuracy : Accuracy} (hq : 0 < q)
    (h : Represents (ExtendedMantissa.ofMantissaAndAccuracy m accuracy) (q / 2 ^ e))
    (fine : e ≤ grain q) : Rounded q (roundWithAccuracy Format.binary64 .positive m e accuracy) := by
  have low := h.mantissa_le
  have high := h.lt_succ
  rw [mantissa_ofMantissaAndAccuracy] at low high
  have target : Format.binary64.targetExponent (totalExponent m e) = grain q := by
    rw [targetExponent_eq, grain]
    rcases Nat.eq_zero_or_pos m with rfl | hm
    · have unit : (0 : ℚ) < 2 ^ e := zpow_pos (by norm_num) e
      have small : Int.log 2 q < e := by
        rw [← Int.lt_zpow_iff_log_lt (by decide) hq]
        rw [Nat.cast_zero, zero_add, div_lt_one unit] at high
        exact_mod_cast high
      rw [grain] at fine
      simp only [Nat.log2_zero, Nat.cast_zero, zero_add]
      omega
    · rw [log_eq_log2 hm low high]
  have shifted := h.shiftRight (grain q - e).toNat
  have value : q / 2 ^ e / 2 ^ (grain q - e).toNat = q / 2 ^ grain q := by
    rw [div_div, ← zpow_natCast, ← zpow_add₀ (by norm_num), Int.toNat_of_nonneg (by omega),
      add_sub_cancel]
  rw [value] at shifted
  have few := shifted.nearest.le_of_lt (lt_grain q)
  refine ⟨_, shifted.nearest, ?_⟩
  rw [← shift_units few (neg_le_grain q), roundWithAccuracy, shiftToTargetExponent_eq target fine]

theorem grain_eq (hm : 0 < m) (e : ℤ) :
    grain (m * 2 ^ e) = max (m.log2 + e - 52) (-1074) := by
  have unit : (0 : ℚ) < 2 ^ e := zpow_pos (by norm_num) e
  have value : (m : ℚ) * 2 ^ e / 2 ^ e = m := mul_div_cancel_right₀ _ unit.ne'
  rw [grain, log_eq_log2 hm value.ge (by linarith)]

/-- A number that is written with a whole mantissa is rounded. -/
theorem rounded_exact (hm : 0 < m) (fine : e ≤ grain (m * 2 ^ e)) :
    Rounded (m * 2 ^ e) (roundWithAccuracy Format.binary64 .positive m e .exact) := by
  have unit : (0 : ℚ) < 2 ^ e := zpow_pos (by norm_num) e
  have positive : (0 : ℚ) < m := by exact_mod_cast hm
  refine rounded_roundWithAccuracy (mul_pos positive unit) ?_ fine
  rw [mul_div_cancel_right₀ _ unit.ne']
  exact represents_exact m

theorem rounded_round (hm : 0 < m) (e : ℤ) :
    Rounded (m * 2 ^ e) (round Format.binary64 .positive m e) := by
  have target := targetExponent_eq m e
  rw [← grain_eq hm] at target
  have kept : ((m <<< (e - grain (m * 2 ^ e)).toNat : ℕ) : ℚ) *
      2 ^ (e - ((e - grain (m * 2 ^ e)).toNat : ℤ)) = m * 2 ^ e := by
    rw [Nat.shiftLeft_eq, zpow_sub₀ (by norm_num), zpow_natCast]
    push_cast
    field_simp
  have positive : 0 < m <<< (e - grain (m * 2 ^ e)).toNat := by
    rw [Nat.shiftLeft_eq]
    positivity
  have done := rounded_exact (e := e - ((e - grain (m * 2 ^ e)).toNat : ℤ)) positive
    (by rw [kept]; omega)
  rw [kept] at done
  unfold Float.Model.UnpackedFloat.round
  rw [target]
  exact done

theorem rounded_mul {m' : ℕ} {e' : ℤ} (hm : 0 < m) (hm' : 0 < m') (long : 2 ^ 52 ≤ m) :
    Rounded (m * 2 ^ e * (m' * 2 ^ e'))
      (mul Format.binary64 (.finite .positive m e hm) (.finite .positive m' e' hm')) := by
  have product : (m * 2 ^ e * (m' * 2 ^ e') : ℚ) = (m * m' : ℕ) * 2 ^ (e + e') := by
    rw [zpow_add₀ (by norm_num)]
    push_cast
    ring
  have positive := Nat.mul_pos hm hm'
  have bits : 52 ≤ (m * m').log2 :=
    (Nat.le_log2 positive.ne').2 (le_trans long (Nat.le_mul_of_pos_right m hm'))
  have fine : e + e' ≤ grain ((m * m' : ℕ) * 2 ^ (e + e')) := by
    rw [grain_eq positive]
    omega
  rw [product]
  exact rounded_exact positive fine

theorem le_log_div {m' : ℕ} {e' : ℤ} (hm : 0 < m) (hm' : 0 < m') :
    (m.log2 + e) - (m'.log2 + e') - 1 ≤ Int.log 2 (m * 2 ^ e / (m' * 2 ^ e') : ℚ) := by
  have unit : ∀ k : ℤ, (0 : ℚ) < 2 ^ k := fun k => zpow_pos (by norm_num) k
  have positive : (0 : ℚ) < m := by exact_mod_cast hm
  have positive' : (0 : ℚ) < m' := by exact_mod_cast hm'
  have low : (2 : ℚ) ^ m.log2 ≤ m := by exact_mod_cast Nat.log2_self_le hm.ne'
  have high : (m' : ℚ) ≤ 2 ^ (m'.log2 + 1) := by exact_mod_cast (Nat.lt_log2_self (n := m')).le
  rw [← Int.zpow_le_iff_le_log (by decide)
    (div_pos (mul_pos positive (unit e)) (mul_pos positive' (unit e')))]
  rw [le_div_iff₀ (mul_pos positive' (unit e'))]
  calc ((2 : ℕ) : ℚ) ^ ((m.log2 + e) - (m'.log2 + e') - 1) * (m' * 2 ^ e')
      ≤ 2 ^ ((m.log2 + e) - (m'.log2 + e') - 1) * (2 ^ (m'.log2 + 1) * 2 ^ e') := by
        rw [Nat.cast_ofNat]
        exact mul_le_mul_of_nonneg_left (mul_le_mul_of_nonneg_right high (unit e').le) (unit _).le
    _ = 2 ^ m.log2 * 2 ^ e := by
        rw [← zpow_natCast, ← zpow_natCast, ← zpow_add₀ (by norm_num), ← zpow_add₀ (by norm_num),
          ← zpow_add₀ (by norm_num)]
        congr 1
        push_cast
        ring
    _ ≤ m * 2 ^ e := mul_le_mul_of_nonneg_right low (unit e).le

theorem rounded_div {m' : ℕ} {e' : ℤ} (hm : 0 < m) (hm' : 0 < m') :
    Rounded (m * 2 ^ e / (m' * 2 ^ e'))
      (div Format.binary64 (.finite .positive m e hm) (.finite .positive m' e' hm')) := by
  have unit : ∀ k : ℤ, (0 : ℚ) < 2 ^ k := fun k => zpow_pos (by norm_num) k
  have positive : (0 : ℚ) < m := by exact_mod_cast hm
  have positive' : (0 : ℚ) < m' := by exact_mod_cast hm'
  show Rounded _ (roundWithAccuracy Format.binary64 .positive _ _ _)
  -- the exponent of the quotient is chosen low enough for all bits that are kept
  generalize target : min (e - e')
    (Format.binary64.targetExponent (totalExponent m e - totalExponent m' e')) = t
  have fine : t ≤ grain (m * 2 ^ e / (m' * 2 ^ e')) := by
    have least : (m.log2 + e) - (m'.log2 + e') - 1 ≤
        Int.log 2 (m * 2 ^ e / (m' * 2 ^ e') : ℚ) := le_log_div hm hm'
    have total : Format.binary64.targetExponent (totalExponent m e - totalExponent m' e') =
        max (m.log2 + e - (m'.log2 + e') - 53) (-1074) := by
      rw [targetExponent_binary64, totalExponent, totalExponent]
      omega
    rw [grain]
    omega
  have value : (m * 2 ^ e / (m' * 2 ^ e') / 2 ^ t : ℚ) = (m <<< (e - e' - t).toNat : ℕ) / m' := by
    have exponent : ((e - e' - t).toNat : ℤ) = e - e' - t := Int.toNat_of_nonneg (by omega)
    rw [Nat.shiftLeft_eq]
    push_cast
    rw [← zpow_natCast, exponent, zpow_sub₀ (by norm_num), zpow_sub₀ (by norm_num)]
    field_simp
  refine rounded_roundWithAccuracy
    (div_pos (mul_pos positive (unit e)) (mul_pos positive' (unit e'))) ?_ fine
  rw [value]
  exact represents_fraction _ hm'

/-- What is less than a power of two in units of another one. -/
theorem log_lt_of_units {y : ℚ} {t k : ℤ} (positive : 0 < y * 2 ^ t) (less : y < 2 ^ k) :
    Int.log 2 (y * 2 ^ t) < k + t := by
  rw [← Int.lt_zpow_iff_log_lt (by decide) positive, Nat.cast_ofNat, zpow_add₀ (by norm_num)]
  exact mul_lt_mul_of_pos_right less (zpow_pos (by norm_num) t)

/-- What is at least a power of two in units of another one. -/
theorem le_log_of_units {y : ℚ} {t k : ℤ} (positive : 0 < y * 2 ^ t) (most : 2 ^ k ≤ y) :
    k + t ≤ Int.log 2 (y * 2 ^ t) := by
  rw [← Int.zpow_le_iff_le_log (by decide) positive, Nat.cast_ofNat, zpow_add₀ (by norm_num)]
  exact mul_le_mul_of_nonneg_right most (zpow_pos (by norm_num) t).le

/-- What lies close to a double is rounded to it. -/
theorem rounded_near {t : ℤ} (hn : 0 < n) (short : n < 2 ^ 53) (normal : 2 ^ 52 ≤ n ∨ t = -1074)
    (ht : -1074 ≤ t) (hq : 0 < q) (near : |q - n * 2 ^ t| < n * 2 ^ t / 2 ^ 54) :
    Rounded q (.finite .positive n t hn) := by
  have unit : (0 : ℚ) < 2 ^ t := zpow_pos (by norm_num) t
  have whole : (n : ℚ) + 1 ≤ 2 ^ 53 := by exact_mod_cast short
  have half : (n : ℚ) / 2 ^ 54 < 1 / 2 := by
    rw [div_lt_iff₀ (by norm_num)]
    norm_num at whole ⊢
    linarith
  obtain ⟨y, rfl⟩ : ∃ y, q = y * 2 ^ t := ⟨q / 2 ^ t, (div_mul_cancel₀ _ unit.ne').symm⟩
  have hy : y * 2 ^ t / 2 ^ t = y := mul_div_cancel_right₀ y unit.ne'
  have close : |y - n| < n / 2 ^ 54 := by
    rw [← sub_mul, abs_mul, abs_of_pos unit, mul_div_right_comm] at near
    exact lt_of_mul_lt_mul_right near unit.le
  obtain ⟨low, high⟩ := abs_lt.1 close
  by_cases same : 2 ^ 52 ≤ y ∨ t = -1074
  · have top : Int.log 2 (y * 2 ^ t) < 53 + t := log_lt_of_units hq (by rw [zpow_ofNat]; linarith)
    have grained : grain (y * 2 ^ t) = t := by
      rcases same with long | rfl
      · have bottom : 52 + t ≤ Int.log 2 (y * 2 ^ t) := le_log_of_units hq (by rwa [zpow_ofNat])
        rw [grain]
        omega
      · rw [grain]
        omega
    refine ⟨n, .inl ?_, ?_⟩
    · rw [grained, hy]
      exact close.trans half
    · rw [grained, units, dif_neg hn.ne', if_pos short]
  · -- right below a power of two the grain is finer
    obtain ⟨less, apart⟩ := not_or.1 same
    have least : n = 2 ^ 52 := by
      have long := normal.resolve_right apart
      have few : (n : ℚ) < 2 ^ 52 + 1 := by linarith
      have few : n < 2 ^ 52 + 1 := by exact_mod_cast few
      omega
    have size : (n : ℚ) = 2 ^ 52 := by exact_mod_cast least
    rw [size] at low
    have quarter : (2 : ℚ) ^ 52 / 2 ^ 54 = 1 / 4 := by norm_num
    rw [quarter] at low
    have top : Int.log 2 (y * 2 ^ t) < 52 + t := log_lt_of_units hq (by rw [zpow_ofNat]; linarith)
    have bottom : 51 + t ≤ Int.log 2 (y * 2 ^ t) := le_log_of_units hq (by rw [zpow_ofNat]; linarith)
    have grained : grain (y * 2 ^ t) = t - 1 := by
      rw [grain]
      omega
    have doubled : y * 2 ^ t / 2 ^ (t - 1) = 2 * y := by
      rw [zpow_sub₀ (by norm_num)]
      field_simp
    refine ⟨2 ^ 53, .inl ?_, ?_⟩
    · rw [grained, doubled, abs_lt]
      push_cast
      constructor <;> linarith
    · subst least
      have carried : units (2 ^ 53) (t - 1) = .finite .positive (2 ^ 52) (t - 1 + 1) hn := rfl
      rw [grained, carried, sub_add_cancel]

end Rounding

end SeriesLang
