import SeriesLang.Decimal.Notation
import SeriesLang.Proofs.Decimal.Rounding

/-! # Bits of doubles

A finite double is a sign, an exponent and a mantissa, which can be taken out of its bits and put back.
-/

namespace SeriesLang

open Float.Model Float.Model.UnpackedFloat

namespace Bits

variable {s : Sign} {E : BitVec 11} {M : BitVec 52} {v : Float}

/-- The bits of a sign, an exponent and a mantissa. -/
abbrev components (s : Sign) (E : BitVec 11) (M : BitVec 52) : BitVec 64 :=
  packComponents Format.binary64 s E M

/-- The finite double with these parts: the leading bit of the mantissa is left out unless the exponent
    is zero. -/
def parts (s : Sign) (E : BitVec 11) (M : BitVec 52) : UnpackedFloat :=
  if E = 0#11 then
    if h : M = 0#52 then .zero s
    else .finite s M.toNat (-1074) (by simpa [BitVec.toNat_pos, BitVec.pos_iff_ne_zero])
  else .finite s (2 ^ 52 + M.toNat) (E.toNat - 1075) (by positivity)

/-- No exponent and no mantissa are the parts of a zero; others leave something. -/
theorem parts_cases (E : BitVec 11) (M : BitVec 52) :
    (E = 0#11 ∧ M = 0#52 ∧ ∀ s, parts s E M = .zero s) ∨
      ∃ m e, ∃ hm : 0 < m, ∀ s, parts s E M = .finite s m e hm := by
  by_cases zero : E = 0#11
  · by_cases empty : M = 0#52
    · exact .inl ⟨zero, empty, fun s => by rw [parts, if_pos zero, dif_pos empty]⟩
    · exact .inr ⟨_, _, _, fun s => by rw [parts, if_pos zero, dif_neg empty]⟩
  · exact .inr ⟨_, _, _, fun s => by rw [parts, if_neg zero]⟩

theorem toNat_components : (components s E M).toNat =
    2 ^ 52 * (2 ^ 11 * s.toBitVec.toNat + E.toNat) + M.toNat := by
  simp only [components, packComponents]
  rw [BitVec.toNat_append, BitVec.toNat_append, Nat.shiftLeft_eq, Nat.shiftLeft_eq,
    Nat.mul_comm _ (2 ^ 11), ← Nat.two_pow_add_eq_or_of_lt E.isLt, Nat.mul_comm _ (2 ^ 52),
    ← Nat.two_pow_add_eq_or_of_lt M.isLt]

/-- All bits belong to the sign, to the exponent or to the mantissa. -/
theorem exists_components (b : BitVec 64) : ∃ s E M, b = components s E M := by
  have sign : ∃ s : Sign, s.toBitVec.toNat = b.toNat / 2 ^ 63 := by
    have := b.isLt
    rcases (by omega : b.toNat / 2 ^ 63 = 0 ∨ b.toNat / 2 ^ 63 = 1) with h | h
    · exact ⟨.positive, h.symm⟩
    · exact ⟨.negative, h.symm⟩
  obtain ⟨s, hs⟩ := sign
  refine ⟨s, .ofNat 11 (b.toNat / 2 ^ 52), .ofNat 52 b.toNat, BitVec.eq_of_toNat_eq ?_⟩
  rw [toNat_components, hs, BitVec.toNat_ofNat, BitVec.toNat_ofNat]
  omega

theorem ofBitVec_toBitVec : Sign.ofBitVec s.toBitVec = s := by
  cases s <;> rfl

theorem unpackSign_components : @unpackSign Format.binary64 (components s E M) = s.toBitVec := by
  apply BitVec.eq_of_toNat_eq
  show ((components s E M).toNat >>> 63) % 2 = _
  rw [toNat_components, Nat.shiftRight_eq_div_pow]
  have := s.toBitVec.isLt
  omega

/-- What is unpacked is what the three pieces of the bits are the parts of. -/
theorem unpack_eq_parts {b : BitVec 64} (finite : @unpackExponent Format.binary64 b ≠ -1#11) :
    unpack Format.binary64 b = parts (Sign.ofBitVec (@unpackSign Format.binary64 b))
      (@unpackExponent Format.binary64 b) (@unpackMantissa Format.binary64 b) := by
  refine (if_neg finite).trans ?_
  by_cases zero : @unpackExponent Format.binary64 b = 0#11
  · refine (if_pos zero).trans (.trans ?_ (if_pos zero).symm)
    by_cases empty : @unpackMantissa Format.binary64 b = 0#52
    · refine (dif_pos empty).trans (.symm ?_)
      exact dif_pos empty
    · refine (dif_neg empty).trans (.trans ?_ (dif_neg empty).symm)
      rw [zero]
      rfl
  · refine (if_neg zero).trans (.trans ?_ (if_neg zero).symm)
    congr 1
    rw [BitVec.toNat_append, Nat.shiftLeft_eq, Nat.mul_comm]
    exact (Nat.two_pow_add_eq_or_of_lt (BitVec.isLt _) _).symm

theorem unpack_components (finite : E ≠ -1#11) :
    unpack Format.binary64 (components s E M) = parts s E M := by
  have exponent : @unpackExponent Format.binary64 (components s E M) = E := unpackExponent_packComponents
  have mantissa : @unpackMantissa Format.binary64 (components s E M) = M := unpackMantissa_packComponents
  rw [unpack_eq_parts (exponent.symm ▸ finite), exponent, mantissa, unpackSign_components,
    ofBitVec_toBitVec]

theorem pack_finite {m b : ℕ} {e : ℤ} (hm : 0 < m) (hb : e + 1075 = b) (small : b < 2047) :
    pack Format.binary64 (.finite s m e hm) =
      if m.log2 = 52 then components s (.ofNat 11 b) (.ofNat 52 m)
      else components s 0#11 (.ofNat 52 m) := by
  have biased : (e + Format.binary64.exponentBias + (52 : ℕ)).toNat = b := by
    have bias : (Format.binary64.exponentBias : ℤ) = 1023 := rfl
    rw [bias]
    omega
  have bits : m.log2 + 1 = Format.binary64.mantissaBits ↔ m.log2 = 52 := by
    show m.log2 + 1 = 53 ↔ _
    omega
  unfold UnpackedFloat.pack
  simp only [biased, bits, if_neg (show ¬ 2 ^ 11 ≤ b + 1 by omega)]

theorem pack_parts (finite : E ≠ -1#11) : pack Format.binary64 (parts s E M) = components s E M := by
  have exponent : E.toNat < 2047 := by
    have := E.isLt
    have apart : E.toNat ≠ 2047 := fun h => finite (BitVec.eq_of_toNat_eq h)
    omega
  have mantissa := M.isLt
  by_cases zero : E = 0#11
  · subst zero
    by_cases empty : M = 0#52
    · subst empty
      rfl
    · have hm : M.toNat ≠ 0 := fun h => empty (BitVec.eq_of_toNat_eq h)
      have short : M.toNat.log2 ≠ 52 := ((Nat.log2_lt hm).2 mantissa).ne
      rw [parts, if_pos rfl, dif_neg empty, pack_finite (b := 1) _ rfl (by decide), if_neg short,
        BitVec.ofNat_toNat, BitVec.setWidth_eq]
  · have long : (2 ^ 52 + M.toNat).log2 = 52 := by
      rw [Nat.log2_eq_iff (by omega)]
      omega
    have rest : BitVec.ofNat 52 (2 ^ 52 + M.toNat) = M := by
      apply BitVec.eq_of_toNat_eq
      rw [BitVec.toNat_ofNat, Nat.add_mod_left, Nat.mod_eq_of_lt mantissa]
    rw [parts, if_neg zero, pack_finite (b := E.toNat) _ (by omega) exponent, if_pos long, rest,
      BitVec.ofNat_toNat, BitVec.setWidth_eq]

/-- The double is finite and has these parts. -/
structure HasParts (v : Float) (s : Sign) (E : BitVec 11) (M : BitVec 52) : Prop where
  finite : E ≠ -1#11
  bits : v.toBits.toBitVec = components s E M

theorem HasParts.unpack (h : HasParts v s E M) : v.toModel.unpack = parts s E M := by
  rw [← unpack_components h.finite, ← h.bits]
  rfl

theorem toBits_inj {w : Float} (bits : v.toBits = w.toBits) : v = w := by
  obtain ⟨⟨a, _⟩⟩ := v
  obtain ⟨⟨b, _⟩⟩ := w
  have same : a = b := bits
  subst same
  rfl

theorem HasParts.unique {w : Float} (h : HasParts v s E M) (h' : HasParts w s E M) : v = w :=
  toBits_inj (UInt64.toBitVec_inj.1 (h.bits.trans h'.bits.symm))

theorem hasParts_pack (finite : E ≠ -1#11) : HasParts (.ofModel (.pack (parts s E M))) s E M :=
  ⟨finite, pack_parts finite⟩

theorem exists_parts (h : v.isFinite = true) : ∃ s E M, HasParts v s E M := by
  obtain ⟨s, E, M, bits⟩ := exists_components v.toBits.toBitVec
  refine ⟨s, E, M, ?_, bits⟩
  rintro rfl
  have unpacked : UnpackedFloat.isFinite (UnpackedFloat.unpack Format.binary64 (components s (-1#11) M)) =
      true := by
    rw [← bits]
    exact h
  have special : UnpackedFloat.unpack Format.binary64 (components s (-1#11) M) = if _ then _ else _ :=
    if_pos unpackExponent_packComponents
  rw [special] at unpacked
  split at unpacked <;> cases unpacked

theorem HasParts.abs (h : HasParts v s E M) : HasParts v.abs .positive E M := by
  have magnitude : (parts s E M).abs = parts .positive E M := by
    obtain ⟨-, -, zero⟩ | ⟨_, _, _, filled⟩ := parts_cases E M
    · rw [zero, zero]
      rfl
    · rw [filled, filled]
      rfl
  have same : v.abs = .ofModel (.pack (parts .positive E M)) := by
    rw [← magnitude, ← h.unpack]
    rfl
  rw [same]
  exact hasParts_pack h.finite

theorem HasParts.neg (h : HasParts v s E M) : HasParts (-v) (-s) E M := by
  have opposite : (parts s E M).neg = parts (-s) E M := by
    obtain ⟨-, -, zero⟩ | ⟨_, _, _, filled⟩ := parts_cases E M
    · rw [zero, zero]
      rfl
    · rw [filled, filled]
      rfl
  have same : -v = .ofModel (.pack (parts (-s) E M)) := by
    rw [← opposite, ← h.unpack]
    rfl
  rw [same]
  exact hasParts_pack h.finite

theorem HasParts.isNegative (h : HasParts v s E M) : Decimal.isNegative v = (s == .negative) := by
  have bits : v.toBits.toNat = (components s E M).toNat := by
    rw [← h.bits]
    rfl
  have first : (v.toBits >>> 63).toNat = s.toBitVec.toNat := by
    have exponent := E.isLt
    have mantissa := M.isLt
    rw [UInt64.toNat_shiftRight, bits, toNat_components, Nat.shiftRight_eq_div_pow]
    show _ / 2 ^ 63 = _
    omega
  have same : v.toBits >>> 63 = UInt64.ofNat s.toBitVec.toNat := by
    rw [← first, UInt64.ofNat_toNat]
  rw [Decimal.isNegative, same]
  cases s <;> rfl

/-- A double is made up of its sign and of its size. -/
theorem signed_abs (h : v.isFinite = true) :
    (if Decimal.isNegative v then -v.abs else v.abs) = v := by
  obtain ⟨s, E, M, h⟩ := exists_parts h
  rw [h.isNegative]
  cases s with
  | negative => exact h.abs.neg.unique h
  | positive => exact h.abs.unique h

theorem hasParts_zero : HasParts 0 .positive 0#11 0#52 :=
  ⟨by decide, by decide +kernel⟩

/-- The double is so many units of the size of its last bit. -/
structure HasUnits (v : Float) (n : ℕ) (t : ℤ) : Prop where
  positive : 0 < n
  short : n < 2 ^ 53
  normal : 2 ^ 52 ≤ n ∨ t = -1074
  least : -1074 ≤ t
  greatest : t ≤ 971
  packed : v = .ofModel (.pack (.finite .positive n t positive))
  fraction : Decimal.fractionOf v = if t < 0 then (n, 2 ^ t.natAbs) else (n * 2 ^ t.natAbs, 1)

theorem HasParts.fractionOf (h : HasParts v .positive E M) : Decimal.fractionOf v =
    let n := if E.toNat = 0 then M.toNat else M.toNat + 2 ^ 52
    let t : ℤ := (max E.toNat 1 : ℕ) - 1075
    if t < 0 then (n, 2 ^ t.natAbs) else (n * 2 ^ t.natAbs, 1) := by
  have exponent := E.isLt
  have mantissa := M.isLt
  have bits : v.toBits.toNat = 2 ^ 52 * E.toNat + M.toNat := by
    have all : v.toBits.toNat = (components .positive E M).toNat := by
      rw [← h.bits]
      rfl
    rw [all, toNat_components]
    show 2 ^ 52 * (2 ^ 11 * 0 + E.toNat) + M.toNat = _
    omega
  have field : v.toBits.toNat / 2 ^ 52 % 2 ^ 11 = E.toNat := by omega
  have rest : v.toBits.toNat % 2 ^ 52 = M.toNat := by omega
  simp only [Decimal.fractionOf, Nat.pow_eq, field, rest]

theorem HasUnits.ne_zero {n : ℕ} {t : ℤ} (h : HasUnits v n t) : v ≠ 0 := by
  rintro rfl
  have none : (Decimal.fractionOf 0).1 = 0 := by decide +kernel
  have some := h.positive
  rw [h.fraction] at none
  split at none
  · exact some.ne' none
  · exact (Nat.mul_pos some (Nat.two_pow_pos _)).ne' none

/-- A double without sign is zero, or it has units. -/
theorem HasParts.zero_or_units (h : HasParts v .positive E M) :
    v = 0 ∨ ∃ n t, HasUnits v n t := by
  have exponent : E.toNat < 2047 := by
    have := E.isLt
    have apart : E.toNat ≠ 2047 := fun same => h.finite (BitVec.eq_of_toNat_eq same)
    omega
  have mantissa := M.isLt
  have packed := h.unique (hasParts_pack h.finite)
  have fraction := h.fractionOf
  by_cases zero : E = 0#11
  · by_cases empty : M = 0#52
    · subst zero empty
      exact .inl (h.unique hasParts_zero)
    · have filled : M.toNat ≠ 0 := fun same => empty (BitVec.eq_of_toNat_eq same)
      have none : E.toNat = 0 := by
        rw [zero]
        rfl
      have size : ((max 0 1 : ℕ) : ℤ) - 1075 = -1074 := by decide
      rw [parts, if_pos zero, dif_neg empty] at packed
      simp only [none, if_true, size] at fraction
      exact .inr ⟨M.toNat, -1074, by omega, by omega, .inr rfl, by omega, by omega, packed, fraction⟩
  · have some : E.toNat ≠ 0 := fun same => zero (BitVec.eq_of_toNat_eq same)
    have most : max E.toNat 1 = E.toNat := by omega
    rw [parts, if_neg zero] at packed
    simp only [if_neg some, most, Nat.add_comm M.toNat] at fraction
    exact .inr ⟨2 ^ 52 + M.toNat, E.toNat - 1075, by omega, by omega, .inl (by omega), by omega,
      by omega, packed, fraction⟩

theorem HasParts.eq_zero (h : HasParts v .positive E M) (zero : (v == 0) = true) : v = 0 := by
  have same : (parts .positive E M).beq (parts .positive 0#11 0#52) = true := by
    rw [← h.unpack, ← hasParts_zero.unpack]
    exact zero
  obtain ⟨none, empty, -⟩ | ⟨_, _, _, filled⟩ := parts_cases E M
  · subst none empty
    exact h.unique hasParts_zero
  · rw [filled] at same
    cases same

end Bits

end SeriesLang
