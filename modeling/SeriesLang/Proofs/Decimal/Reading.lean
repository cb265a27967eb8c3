import SeriesLang.Proofs.Decimal.Bits
import SeriesLang.Proofs.Decimal.Spelling

/-! # Reading decimals

The double that is read for a decimal is the nearest one to its value, however it is written.
-/

namespace SeriesLang

open Float.Model Float.Model.UnpackedFloat Rounding Bits

namespace Decimal

theorem lt_pow_length (c : ℕ) : c < 10 ^ (digitsOf c).length :=
  (Nat.length_toDigits_le_iff (by decide) Nat.length_toDigits_pos).1 le_rfl

theorem pow_length_le {c : ℕ} (hc : 0 < c) : 10 ^ ((digitsOf c).length - 1) ≤ c := by
  rcases Nat.eq_zero_or_pos ((digitsOf c).length - 1) with one | more
  · rw [one]
    exact hc
  · by_contra short
    have := (Nat.length_toDigits_le_iff (by decide) more).2 (Nat.lt_of_not_le short)
    rw [digitsOf] at this more
    omega

/-- The first digit of a decimal has this power of ten. -/
theorem log_value {d : Decimal} (hd : 0 < d.coefficient) :
    Int.log 10 d.value = (digitsOf d.coefficient).length + d.exponent - 1 := by
  have unit : (0 : ℚ) < 10 ^ d.exponent := zpow_pos (by norm_num) _
  have low : (10 : ℚ) ^ ((digitsOf d.coefficient).length - 1) ≤ d.coefficient := by
    exact_mod_cast pow_length_le hd
  have high : (d.coefficient : ℚ) < 10 ^ (digitsOf d.coefficient).length := by
    exact_mod_cast lt_pow_length d.coefficient
  have some : 0 < (digitsOf d.coefficient).length := Nat.length_toDigits_pos
  have exponent : ((digitsOf d.coefficient).length + d.exponent - 1 : ℤ) =
      ((digitsOf d.coefficient).length - 1 : ℕ) + d.exponent := by omega
  apply log_eq (by decide) (value_pos.2 hd)
  · rw [exponent, Nat.cast_ofNat, zpow_add₀ (by norm_num), zpow_natCast]
    exact mul_le_mul_of_nonneg_right low unit.le
  · rw [sub_add_cancel, Nat.cast_ofNat, zpow_add₀ (by norm_num), zpow_natCast]
    exact mul_lt_mul_of_pos_right high unit

end Decimal

namespace Bits

/-- A double whose mantissa is full is unpacked as it was packed. -/
theorem unpack_pack_normal {n : ℕ} {t : ℤ} (hn : 0 < n) (short : n < 2 ^ 53) (long : 2 ^ 52 ≤ n)
    (least : -1074 ≤ t) (greatest : t ≤ 971) :
    unpack Format.binary64 (pack Format.binary64 (.finite .positive n t hn)) =
      .finite .positive n t hn := by
  obtain ⟨b, hb⟩ : ∃ b : ℕ, t + 1075 = b := ⟨(t + 1075).toNat, by omega⟩
  have bits : n.log2 = 52 := (Nat.log2_eq_iff hn.ne').2 ⟨long, short⟩
  have exponent : (BitVec.ofNat 11 b).toNat = b := by
    rw [BitVec.toNat_ofNat]
    omega
  have mantissa : (BitVec.ofNat 52 n).toNat = n - 2 ^ 52 := by
    rw [BitVec.toNat_ofNat]
    omega
  have finite : BitVec.ofNat 11 b ≠ -1#11 := by
    intro same
    have : b = 2047 := by
      rw [← exponent, same]
      rfl
    omega
  have filled : BitVec.ofNat 11 b ≠ 0#11 := by
    intro same
    have : b = 0 := by
      rw [← exponent, same]
      rfl
    omega
  rw [pack_finite hn hb (by omega), if_pos bits, unpack_components finite, parts, if_neg filled,
    UnpackedFloat.finite.injEq, exponent, mantissa]
  exact ⟨rfl, by omega, by omega⟩

/-- Small natural numbers are doubles. -/
theorem unpack_natural {m : ℕ} (hm : 0 < m) (small : m < 2 ^ 53) : ∃ (n : ℕ) (t : ℤ) (hn : 0 < n),
    2 ^ 52 ≤ n ∧ (n * 2 ^ t : ℚ) = m ∧
      m.toUInt64.toFloat.toModel.unpack = .finite .positive n t hn := by
  have low := Nat.log2_self_le hm.ne'
  have bits : m.log2 ≤ 52 := Nat.le_of_lt_succ ((Nat.log2_lt hm.ne').2 small)
  have split : 2 ^ m.log2 * 2 ^ (52 - m.log2) = 2 ^ 52 := by
    rw [← pow_add, Nat.add_sub_cancel' bits]
  have long : 2 ^ 52 ≤ m * 2 ^ (52 - m.log2) := by
    rw [← split]
    exact Nat.mul_le_mul_right _ low
  have short : m * 2 ^ (52 - m.log2) < 2 ^ 53 := by
    have high : m < 2 * 2 ^ m.log2 := by
      rw [← pow_succ']
      exact Nat.lt_log2_self
    calc m * 2 ^ (52 - m.log2) < 2 * 2 ^ m.log2 * 2 ^ (52 - m.log2) :=
          Nat.mul_lt_mul_of_pos_right high (Nat.two_pow_pos _)
      _ = 2 ^ 53 := by
        rw [mul_assoc, split]
        norm_num
  have value : ((m * 2 ^ (52 - m.log2) : ℕ) : ℚ) * 2 ^ (m.log2 - 52 : ℤ) = m := by
    have exponent : ((52 - m.log2 : ℕ) : ℤ) + (m.log2 - 52) = 0 := by omega
    push_cast
    rw [mul_assoc, ← zpow_natCast, ← zpow_add₀ (by norm_num), exponent, zpow_zero, mul_one]
  have hn : 0 < m * 2 ^ (52 - m.log2) := lt_of_lt_of_le (by decide) long
  have positive : (0 : ℚ) < m := by exact_mod_cast hm
  have rounded : Rounded m (.finite .positive _ (m.log2 - 52) hn) := by
    refine rounded_near hn short (.inl long) (by omega) positive ?_
    rw [value, sub_self, abs_zero]
    positivity
  have done := rounded_round hm 0
  rw [zpow_zero, mul_one] at done
  have size : m.toUInt64.toNat = m := by
    show m % 2 ^ 64 = m
    omega
  have converted : m.toUInt64.toFloat.toModel =
      .pack (Float.Model.UnpackedFloat.round Format.binary64 .positive m 0) := by
    show Float.Model.pack (Float.Model.UnpackedFloat.normalize Format.binary64 (m.toUInt64.toNat : ℤ) 0 .positive) = _
    rw [size, Float.Model.UnpackedFloat.normalize, Int.compare_eq_gt.2 (by exact_mod_cast hm), Int.toNat_natCast]
  refine ⟨_, _, hn, long, value, ?_⟩
  rw [converted, done.unique rounded]
  exact unpack_pack_normal hn short long (by omega) (by omega)

/-- Is the double this power of ten? -/
def isPower (k : ℕ) : UnpackedFloat → Bool
  | .finite .positive n t _ => n * 2 ^ t.toNat = 10 ^ k * 2 ^ (-t).toNat
  | _ => false

theorem isPower_table (i : Fin Float.exactlyRepresentablePowersOfTen.size) :
    isPower i (Float.exactlyRepresentablePowersOfTen[i]).toModel.unpack = true := by
  revert i
  decide +kernel

/-- So are small powers of ten. -/
theorem unpack_power {k : ℕ} (hk : k < Float.exactlyRepresentablePowersOfTen.size) :
    ∃ (n : ℕ) (t : ℤ) (hn : 0 < n), (n * 2 ^ t : ℚ) = 10 ^ k ∧
      (Float.exactlyRepresentablePowersOfTen[k]).toModel.unpack = .finite .positive n t hn := by
  have power := isPower_table ⟨k, hk⟩
  simp only [Fin.getElem_fin] at power
  cases unpacked : (Float.exactlyRepresentablePowersOfTen[k]).toModel.unpack with
  | finite s n t hn =>
      rw [unpacked] at power
      cases s with
      | negative => cases power
      | positive =>
          refine ⟨n, t, hn, ?_, rfl⟩
          have whole : n * 2 ^ t.toNat = 10 ^ k * 2 ^ (-t).toNat := of_decide_eq_true power
          have exponent : t = (t.toNat : ℤ) - ((-t).toNat : ℤ) := by omega
          rw [exponent, zpow_sub₀ (by norm_num), zpow_natCast, zpow_natCast, ← mul_div_assoc,
            div_eq_iff (by positivity)]
          exact_mod_cast whole
  | _ =>
      rw [unpacked] at power
      cases power

end Bits

namespace Decimal

/-- A product or a quotient of a small number and a small power of ten is rounded only once. -/
theorem rounded_small {m k : ℕ} (hm : 0 < m) (small : m < 2 ^ 53)
    (hk : k < Float.exactlyRepresentablePowersOfTen.size) :
    (∃ f, Rounded (m * 10 ^ k) f ∧
      m.toUInt64.toFloat * Float.exactlyRepresentablePowersOfTen[k] = .ofModel (.pack f)) ∧
    ∃ f, Rounded (m / 10 ^ k) f ∧
      m.toUInt64.toFloat / Float.exactlyRepresentablePowersOfTen[k] = .ofModel (.pack f) := by
  obtain ⟨n, t, hn, long, value, number⟩ := unpack_natural hm small
  obtain ⟨n', t', hn', value', power⟩ := unpack_power hk
  rw [← value, ← value']
  refine ⟨⟨_, rounded_mul hn hn' long, ?_⟩, _, rounded_div hn hn', ?_⟩
  · rw [← number, ← power]
    rfl
  · rw [← number, ← power]
    rfl

theorem rounded_ofScientific {m : ℕ} {k : ℤ} (hm : 0 < m) (low : -(2 ^ 11 + m.log2 : ℤ) ≤ k)
    (high : k ≤ 2 ^ 11) :
    Rounded (m * 10 ^ k) (UnpackedFloat.ofScientific Format.binary64 m k) := by
  unfold UnpackedFloat.ofScientific
  rw [dif_neg hm.ne', if_neg (not_lt.2 high), if_neg (not_lt.2 low)]
  by_cases whole : 0 ≤ k
  · rw [if_pos whole]
    have long : 2 ^ 52 ≤ m <<< 53 := by
      rw [Nat.shiftLeft_eq]
      omega
    have value : ((m <<< 53 : ℕ) * 2 ^ (-53 : ℤ) * ((10 ^ k.toNat : ℕ) * 2 ^ (0 : ℤ)) : ℚ) =
        m * 10 ^ k := by
      have exponent : k = (k.toNat : ℤ) := by omega
      rw [Nat.shiftLeft_eq, exponent, zpow_natCast, Int.toNat_natCast]
      push_cast
      norm_num
      ring
    rw [← value]
    exact rounded_mul (lt_of_lt_of_le (by decide) long) (Nat.pow_pos (by decide)) long
  · rw [if_neg whole]
    have value : ((m : ℚ) * 2 ^ (0 : ℤ) / ((10 ^ (-k).toNat : ℕ) * 2 ^ (0 : ℤ))) = m * 10 ^ k := by
      have exponent : k = -((-k).toNat : ℤ) := by omega
      rw [exponent, zpow_neg, zpow_natCast, neg_neg, Int.toNat_natCast]
      push_cast
      rw [mul_one, mul_one, div_eq_mul_inv]
    rw [← value]
    exact rounded_div hm (Nat.pow_pos (by decide))

/-- What is read for a decimal is nearest to its value, unless that is far out of the range of doubles. -/
theorem toFloat_rounded {d : Decimal} (hd : 0 < d.coefficient)
    (low : -330 ≤ (digitsOf d.coefficient).length + d.exponent)
    (high : (digitsOf d.coefficient).length + d.exponent ≤ 310) :
    ∃ f, Rounded d.value f ∧ d.toFloat = .ofModel (.pack f) := by
  unfold toFloat
  rw [if_neg hd.ne']
  simp only [if_neg (not_lt.2 high), if_neg (not_lt.2 low)]
  have bits : (digitsOf d.coefficient).length ≤ d.coefficient.log2 + 1 := by
    refine (Nat.length_toDigits_le_iff (by decide) (Nat.succ_pos _)).2 ?_
    exact lt_of_lt_of_le Nat.lt_log2_self (Nat.pow_le_pow_left (by decide) _)
  have exponent : (if d.exponent < 0 then Int.negOfNat d.exponent.natAbs else .ofNat d.exponent.natAbs) =
      d.exponent := by
    split <;> simp only [Int.negOfNat_eq, Int.ofNat_eq_natCast] <;> omega
  unfold Float.ofScientific
  split
  · rename_i small
    obtain ⟨⟨f, product, times⟩, g, quotient, divided⟩ := rounded_small hd small.1
      (show d.exponent.natAbs < Float.exactlyRepresentablePowersOfTen.size from Nat.lt_succ_of_le small.2)
    by_cases negative : d.exponent < 0
    · have place : d.exponent = -(d.exponent.natAbs : ℤ) := by omega
      refine ⟨g, ?_, ?_⟩
      · rw [value, place, zpow_neg, zpow_natCast, ← div_eq_mul_inv]
        exact quotient
      · simp only [decide_eq_true negative, if_true]
        exact divided
    · have place : d.exponent = (d.exponent.natAbs : ℤ) := by omega
      refine ⟨f, ?_, ?_⟩
      · rw [value, place, zpow_natCast]
        exact product
      · simp only [decide_eq_false negative]
        exact times
  · refine ⟨_, rounded_ofScientific (k := d.exponent) hd ?_ ?_, ?_⟩
    · omega
    · omega
    · simp only [decide_eq_true_eq, exponent]
      rfl

/-- Decimals of the same value are read as the same double. -/
theorem toFloat_congr {d d' : Decimal} (same : d.value = d'.value) : d.toFloat = d'.toFloat := by
  rcases Nat.eq_zero_or_pos d.coefficient with zero | hd
  · have zero' : d'.coefficient = 0 := by
      have none : ¬ 0 < d'.value := by
        rw [← same, value_pos, zero]
        exact lt_irrefl 0
      exact Nat.eq_zero_of_not_pos (fun hd' => none (value_pos.2 hd'))
    rw [toFloat, toFloat, if_pos zero, if_pos zero']
  · have hd' : 0 < d'.coefficient := by
      rw [← value_pos, ← same, value_pos]
      exact hd
    have magnitude : ((digitsOf d.coefficient).length + d.exponent : ℤ) =
        (digitsOf d'.coefficient).length + d'.exponent := by
      have first := log_value hd
      have second := log_value hd'
      rw [same] at first
      omega
    by_cases high : (digitsOf d.coefficient).length + d.exponent ≤ 310
    · by_cases low : -330 ≤ (digitsOf d.coefficient).length + d.exponent
      · obtain ⟨f, near, read⟩ := toFloat_rounded hd low high
        obtain ⟨f', near', read'⟩ := toFloat_rounded hd' (magnitude ▸ low) (magnitude ▸ high)
        rw [same] at near
        rw [read, read', near.unique near']
      · simp only [toFloat, if_neg hd.ne', if_neg hd'.ne', ← magnitude, if_neg (not_lt.2 high),
          if_pos (not_le.1 low)]
    · simp only [toFloat, if_neg hd.ne', if_neg hd'.ne', ← magnitude, if_pos (not_le.1 high)]

/-- A decimal that lies close to a double is read as it. -/
theorem toFloat_of_near {v : Float} {n : ℕ} {t : ℤ} (h : HasUnits v n t) {d : Decimal}
    (hd : 0 < d.coefficient) (near : |d.value - n * 2 ^ t| < n * 2 ^ t / 2 ^ 54) : d.toFloat = v := by
  have positive := value_pos.2 hd
  have rounded := rounded_near h.positive h.short h.normal h.least positive near
  obtain ⟨below, above⟩ := abs_lt.1 near
  have small : (2 : ℚ) ^ (-1074 : ℤ) ≤ n * 2 ^ t := by
    have one : (1 : ℚ) ≤ n := by exact_mod_cast h.positive
    calc (2 : ℚ) ^ (-1074 : ℤ) ≤ 2 ^ t := zpow_le_zpow_right₀ (by norm_num) h.least
      _ ≤ n * 2 ^ t := le_mul_of_one_le_left (zpow_pos (by norm_num) t).le one
  have large : (n * 2 ^ t : ℚ) ≤ 2 ^ 53 * 2 ^ (971 : ℤ) := by
    have short : (n : ℚ) ≤ 2 ^ 53 := by exact_mod_cast h.short.le
    exact mul_le_mul short (zpow_le_zpow_right₀ (by norm_num) h.greatest)
      (zpow_pos (by norm_num) t).le (by norm_num)
  have low : -330 ≤ (digitsOf d.coefficient).length + d.exponent := by
    have least : -331 ≤ Int.log 10 d.value := by
      rw [← Int.zpow_le_iff_le_log (by decide) positive]
      have powers : (2 : ℚ) ^ 1075 ≤ 10 ^ 331 := by
        have whole : 2 ^ 1075 ≤ 10 ^ 331 := by decide +kernel
        exact_mod_cast whole
      calc ((10 : ℕ) : ℚ) ^ (-331 : ℤ) = (10 ^ 331)⁻¹ := by
            rw [Nat.cast_ofNat, zpow_neg, zpow_ofNat]
        _ ≤ (2 ^ 1075)⁻¹ := inv_anti₀ (by positivity) powers
        _ = 2 ^ (-1074 : ℤ) / 2 := by
            rw [zpow_neg, zpow_ofNat, pow_succ, mul_inv, div_eq_mul_inv]
        _ ≤ d.value := by linarith
    rw [log_value hd] at least
    omega
  have high : (digitsOf d.coefficient).length + d.exponent ≤ 310 := by
    have greatest : Int.log 10 d.value < 310 := by
      rw [← Int.lt_zpow_iff_log_lt (by decide) positive]
      have powers : (2 : ℚ) ^ 1025 ≤ 10 ^ 310 := by
        have whole : 2 ^ 1025 ≤ 10 ^ 310 := by decide +kernel
        exact_mod_cast whole
      have some : (0 : ℚ) < n * 2 ^ t := lt_of_lt_of_le (zpow_pos (by norm_num) _) small
      calc d.value < 2 * (n * 2 ^ t) := by linarith
        _ ≤ 2 * (2 ^ 53 * 2 ^ (971 : ℤ)) := mul_le_mul_of_nonneg_left large (by norm_num)
        _ = 2 ^ 1025 := by
            rw [zpow_ofNat, ← pow_add, ← pow_succ']
        _ ≤ ((10 : ℕ) : ℚ) ^ (310 : ℤ) := by
            rw [Nat.cast_ofNat, zpow_ofNat]
            exact powers
    rw [log_value hd] at greatest
    omega
  obtain ⟨f, near', read⟩ := toFloat_rounded hd low high
  rw [read, near'.unique rounded, ← h.packed]

end Decimal

end SeriesLang
