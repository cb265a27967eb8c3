import Mathlib.Algebra.Order.Field.Power
import Mathlib.Data.Rat.Cast.Order
import Mathlib.Tactic.FieldSimp
import Mathlib.Tactic.Ring
import SeriesLang.Decimal.Notation
import SeriesLang.Proofs.Decimal.Grammar

/-! # Spelling of numbers

The texts of integers and decimals are numerals again, with the same value. The numeral of a decimal has a
point or an exponent, so it is never taken for an integer.
-/

namespace SeriesLang

namespace Decimal

/-- The number itself. -/
def value (d : Decimal) : ℚ :=
  d.coefficient * 10 ^ d.exponent

theorem value_pos {d : Decimal} : 0 < d.value ↔ 0 < d.coefficient := by
  have unit : (0 : ℚ) < 10 ^ d.exponent := zpow_pos (by norm_num) _
  rw [value, mul_pos_iff_of_pos_right unit, Nat.cast_pos]

theorem isDigit_of_mem_digitsOf {n : Nat} {c : Char} (h : c ∈ digitsOf n) : c.isDigit = true :=
  Nat.isDigit_of_mem_toDigits (by decide) (by decide) h

theorem digitsOf_ne_nil (n : Nat) : digitsOf n ≠ [] :=
  Nat.toDigits_ne_nil

/-- Digits read back to the number that they write. -/
theorem ofDigits_digitsOf (n : Nat) : ofDigits (digitsOf n) = n := by
  have same : ofDigits (digitsOf n) = Nat.ofDigitChars 10 (Nat.toDigits 10 n) 0 := by
    simp only [ofDigits, digitsOf, Nat.ofDigitChars_eq_foldl, Nat.mul_comm]
  rw [same, Nat.ofDigitChars_ten_toDigits]

theorem foldl_ofDigits (ds : List Char) (n : ℕ) :
    ds.foldl (fun n d => n * 10 + (d.toNat - '0'.toNat)) n = n * 10 ^ ds.length + ofDigits ds := by
  induction ds generalizing n with
  | nil => simp [ofDigits]
  | cons d ds ih =>
      have head : ofDigits (d :: ds) = (d.toNat - '0'.toNat) * 10 ^ ds.length + ofDigits ds := by
        rw [ofDigits, List.foldl_cons, ih, Nat.zero_mul, Nat.zero_add]
      rw [List.foldl_cons, ih, head, List.length_cons]
      ring

theorem ofDigits_append (ds ds' : List Char) :
    ofDigits (ds ++ ds') = ofDigits ds * 10 ^ ds'.length + ofDigits ds' := by
  rw [ofDigits, List.foldl_append, foldl_ofDigits]
  rfl

theorem ofDigits_zeros (k : ℕ) : ofDigits (List.replicate k '0') = 0 := by
  induction k with
  | zero => rfl
  | succ k ih =>
      have zero : ofDigits ['0'] = 0 := by decide
      rw [List.replicate_succ', ofDigits_append, ih, zero, Nat.zero_mul]

/-- The sign in front of a number. -/
def signChars (negative : Bool) : List Char :=
  if negative then ['-'] else []

/-- The text of an integer is a sign and the digits of its size. -/
theorem toList_toString_int (n : Int) :
    (toString n).toList = signChars (decide (n < 0)) ++ digitsOf n.natAbs := by
  cases n with
  | ofNat n =>
      show (Nat.repr n).toList = _
      rw [Nat.toList_repr, decide_eq_false (by simp)]
      rfl
  | negSucc n =>
      show ("-" ++ Nat.repr (n + 1)).toList = _
      rw [String.toList_append, Nat.toList_repr, decide_eq_true (Int.negSucc_lt_zero n)]
      rfl

end Decimal

namespace Numeral

open Decimal

theorem sign_signChars (negative : Bool) : Sign (signChars negative) negative := by
  cases negative with
  | false => exact .absent
  | true => exact .minus

theorem digits_digitsOf (n : ℕ) : Digits (digitsOf n) :=
  fun _ => isDigit_of_mem_digitsOf

/-- The text of an integer is a numeral of its digits. -/
theorem ofChars?_toString (n : Int) :
    ofChars? (toString n).toList = some ⟨decide (n < 0), digitsOf n.natAbs, none, none⟩ := by
  have plain : Written (signChars (decide (n < 0)) ++ (digitsOf n.natAbs ++ []))
      ⟨decide (n < 0), digitsOf n.natAbs, none, none⟩ :=
    .whole (sign_signChars _) (digits_digitsOf _) (digitsOf_ne_nil _) .absent
  rw [List.append_nil, ← toList_toString_int] at plain
  exact plain.read

theorem toInt_digitsOf (n : Int) : toInt ⟨decide (n < 0), digitsOf n.natAbs, none, none⟩ = n := by
  simp only [toInt, ofDigits_digitsOf, decide_eq_true_eq]
  split <;> omega

/-- An integer in plain digits is a numeral that reads back to it. -/
theorem ofChars?_int (n : Int) : ∃ numeral, ofChars? (toString n).toList = some numeral ∧
    numeral.isInteger = true ∧ numeral.toInt = n :=
  ⟨_, ofChars?_toString n, rfl, toInt_digitsOf n⟩

/-- An exponent is written behind its letter. -/
theorem exponent_int (power : Int) : Exponent ('e' :: (toString power).toList)
    (some (decide (power < 0), digitsOf power.natAbs)) := by
  rw [toList_toString_int]
  exact .power (.inl rfl) (sign_signChars _) (digits_digitsOf _) (digitsOf_ne_nil _)

/-- The characters of numerals. -/
def Spells (c : Char) : Prop :=
  c.isDigit = true ∨ c ∈ ['+', '-', '.', 'e', 'E']

theorem Digits.spells {cs : List Char} (h : Digits cs) : ∀ c ∈ cs, Spells c :=
  fun c hc => .inl (h c hc)

theorem Sign.spells {cs : List Char} {negative : Bool} (h : Sign cs negative) :
    ∀ c ∈ cs, Spells c := by
  intro c hc
  cases h with
  | absent => cases hc
  | plus =>
      rw [List.mem_singleton.1 hc]
      exact .inr (by decide)
  | minus =>
      rw [List.mem_singleton.1 hc]
      exact .inr (by decide)

theorem Exponent.spells {cs : List Char} {exponent : Option (Bool × List Char)}
    (h : Exponent cs exponent) : ∀ c ∈ cs, Spells c := by
  intro c hc
  cases h with
  | absent => cases hc
  | power letters signed run =>
      rcases List.mem_cons.1 hc with rfl | hc
      · exact .inr (by rcases letters with rfl | rfl <;> decide)
      · exact (List.mem_append.1 hc).elim (signed.spells c) (run.spells c)

/-- Nothing but characters of numerals is read as one. -/
theorem spells_of_ofChars? {cs : List Char} {n : Numeral} (h : ofChars? cs = some n) :
    ∀ c ∈ cs, Spells c := by
  cases ofChars?_eq_some_iff.1 h with
  | whole signed run _ powered =>
      simp only [List.forall_mem_append]
      exact ⟨signed.spells, run.spells, powered.spells⟩
  | point signed run more _ powered =>
      simp only [List.forall_mem_append, List.forall_mem_cons]
      exact ⟨signed.spells, run.spells, .inr (by decide), more.spells, powered.spells⟩

end Numeral

namespace Decimal

open Numeral

/-- The characters make up a numeral of this value that is not an integer, whatever sign stands in
    front. -/
def SpellsFloat (cs : List Char) (q : ℚ) : Prop :=
  ∀ negative, ∃ numeral, ofChars? (signChars negative ++ cs) = some numeral ∧
    numeral.isInteger = false ∧ numeral.negative = negative ∧ numeral.toDecimal.value = q

/-- Digits on both sides of a point spell a double. -/
theorem spellsFloat_point {whole fraction : List Char} {q : ℚ} (nonempty : whole ≠ [])
    (digits : ∀ c ∈ whole, c.isDigit = true) (more : ∀ c ∈ fraction, c.isDigit = true)
    (same : ofDigits (whole ++ fraction) * 10 ^ (-fraction.length : ℤ) = q) :
    SpellsFloat (whole ++ '.' :: fraction) q := by
  intro negative
  have written : Written (signChars negative ++ (whole ++ '.' :: (fraction ++ [])))
      ⟨negative, whole, some fraction, none⟩ :=
    .point (sign_signChars negative) digits more (.inl nonempty) .absent
  rw [List.append_nil] at written
  refine ⟨_, written.read, rfl, rfl, ?_⟩
  simp only [toDecimal, value, exponentValue, Option.getD_some, zero_sub]
  exact same

theorem spellsFloat_positional {digits : List Char} (nonempty : digits ≠ [])
    (all : ∀ c ∈ digits, c.isDigit = true) (point : Int) :
    SpellsFloat (positionalChars true digits point)
      (ofDigits digits * 10 ^ (point - digits.length)) := by
  have zeros : ∀ k, ∀ c ∈ List.replicate k '0', c.isDigit = true := by
    intro k c hc
    rw [List.eq_of_mem_replicate hc]
    rfl
  have padded : ∀ k, (∀ c ∈ List.replicate k '0' ++ digits, c.isDigit = true) ∧
      (∀ c ∈ digits ++ List.replicate k '0', c.isDigit = true) := by
    intro k
    simp only [List.mem_append]
    exact ⟨fun c hc => hc.elim (zeros k c) (all c), fun c hc => hc.elim (all c) (zeros k c)⟩
  have zero : ∀ c ∈ ['0'], c.isDigit = true := List.all_eq_true.1 (by decide)
  unfold positionalChars
  split
  · refine spellsFloat_point (List.cons_ne_nil '0' []) zero (padded _).1 ?_
    have none : ofDigits (['0'] ++ List.replicate point.natAbs '0') = 0 :=
      ofDigits_zeros (point.natAbs + 1)
    have place : (-(List.replicate point.natAbs '0' ++ digits).length : ℤ) = point - digits.length := by
      rw [List.length_append, List.length_replicate]
      omega
    rw [← List.append_assoc, ofDigits_append, none, Nat.zero_mul, Nat.zero_add, place]
  · simp only [if_true]
    split
    · refine spellsFloat_point (by simp [nonempty]) (padded _).2 zero ?_
      have place : point - digits.length = ((point.toNat - digits.length : ℕ) : ℤ) := by omega
      have one : (-['0'].length : ℤ) = -1 := rfl
      rw [List.append_assoc, ← List.replicate_succ', ofDigits_append, ofDigits_zeros, Nat.add_zero,
        List.length_replicate, one, place, zpow_natCast, zpow_neg_one, pow_succ]
      push_cast
      field_simp
    · refine spellsFloat_point ?_ (fun c hc => all c (List.mem_of_mem_take hc))
        (fun c hc => all c (List.mem_of_mem_drop hc)) ?_
      · simp only [ne_eq, List.take_eq_nil_iff, nonempty, or_false]
        omega
      · have place : (-(digits.drop point.toNat).length : ℤ) = point - digits.length := by
          rw [List.length_drop]
          omega
        rw [List.take_append_drop, place]

theorem spellsFloat_scientific {digits : List Char} (nonempty : digits ≠ [])
    (all : ∀ c ∈ digits, c.isDigit = true) (power : Int) :
    SpellsFloat (scientificChars digits power)
      (ofDigits digits * 10 ^ (power - (digits.length - 1))) := by
  have size : (if decide (power < 0) then -(ofDigits (digitsOf power.natAbs) : Int)
      else ofDigits (digitsOf power.natAbs)) = power := by
    rw [ofDigits_digitsOf]
    simp only [decide_eq_true_eq]
    split <;> omega
  intro negative
  unfold scientificChars
  split
  · exact absurd rfl nonempty
  · rename_i d
    have written : Written (signChars negative ++ ([d] ++ 'e' :: (toString power).toList)) _ :=
      .whole (sign_signChars negative) all (List.cons_ne_nil d []) (exponent_int power)
    refine ⟨_, written.read, rfl, rfl, ?_⟩
    simp only [toDecimal, value, exponentValue, size]
    simp
  · rename_i d rest _
    have first : ∀ c ∈ [d], c.isDigit = true := by
      intro c hc
      exact all c (List.mem_cons.2 (.inl (List.mem_singleton.1 hc)))
    have written : Written
        (signChars negative ++ ([d] ++ '.' :: (rest ++ 'e' :: (toString power).toList))) _ :=
      .point (sign_signChars negative) first (fun c hc => all c (List.mem_cons_of_mem d hc))
        (.inl (List.cons_ne_nil d [])) (exponent_int power)
    refine ⟨_, written.read, rfl, rfl, ?_⟩
    simp only [toDecimal, value, exponentValue, size]
    simp

end Decimal

end SeriesLang
