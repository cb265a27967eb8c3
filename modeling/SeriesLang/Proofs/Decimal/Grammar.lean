import Mathlib.Logic.Basic
import SeriesLang.Decimal.Numeral

/-! # The grammar of numerals

A numeral is a sign, digits with or without a point, and an exponent:

    [+-]? ( [0-9]+ \. [0-9]* | \. [0-9]+ | [0-9]+ ) ( [eE] [+-]? [0-9]+ )?

The reader cuts a text at the first character that is no digit. It accepts the texts of this grammar and
takes each apart in the one way there is.
-/

namespace SeriesLang.Numeral

def Digits (cs : List Char) : Prop :=
  ∀ c ∈ cs, c.isDigit = true

inductive Sign : List Char → Bool → Prop
  | absent : Sign [] false
  | plus : Sign ['+'] false
  | minus : Sign ['-'] true

/-- A letter, a sign and at least one digit, or nothing. -/
inductive Exponent : List Char → Option (Bool × List Char) → Prop
  | absent : Exponent [] none
  | power {letter sign negative digits} (letters : letter = 'e' ∨ letter = 'E')
      (signed : Sign sign negative) (run : Digits digits) (nonempty : digits ≠ []) :
      Exponent (letter :: (sign ++ digits)) (some (negative, digits))

/-- The characters write the numeral. -/
inductive Written : List Char → Numeral → Prop
  | whole {sign negative digits power exponent} (signed : Sign sign negative) (run : Digits digits)
      (nonempty : digits ≠ []) (powered : Exponent power exponent) :
      Written (sign ++ (digits ++ power)) ⟨negative, digits, none, exponent⟩
  | point {sign negative digits fraction power exponent} (signed : Sign sign negative)
      (run : Digits digits) (more : Digits fraction) (nonempty : digits ≠ [] ∨ fraction ≠ [])
      (powered : Exponent power exponent) :
      Written (sign ++ (digits ++ '.' :: (fraction ++ power)))
        ⟨negative, digits, some fraction, exponent⟩

/-- Do the characters start with something else than a digit? -/
def EndsDigits : List Char → Prop
  | [] => True
  | c :: _ => c.isDigit = false

theorem splitDigits_append {digits rest : List Char} (h : Digits digits) (ends : EndsDigits rest) :
    splitDigits (digits ++ rest) = (digits, rest) := by
  have stop : rest.takeWhile Char.isDigit = [] ∧ rest.dropWhile Char.isDigit = rest := by
    cases rest with
    | nil => exact ⟨rfl, rfl⟩
    | cons c rest =>
        have plain : c.isDigit = false := ends
        simp [plain]
  simp only [splitDigits, List.takeWhile_append_of_pos h, List.dropWhile_append_of_pos h, stop,
    List.append_nil]

theorem of_splitDigits {cs digits rest : List Char} (h : splitDigits cs = (digits, rest)) :
    cs = digits ++ rest ∧ Digits digits := by
  obtain ⟨rfl, rfl⟩ := Prod.mk.inj h
  exact ⟨List.takeWhile_append_dropWhile.symm, List.all_eq_true.1 List.all_takeWhile⟩

/-- Do the characters start with something else than a sign? -/
def Unsigned : List Char → Prop
  | [] => True
  | c :: _ => c ≠ '+' ∧ c ≠ '-'

theorem unsigned_append {digits rest : List Char} (h : Digits digits) (hrest : Unsigned rest) :
    Unsigned (digits ++ rest) := by
  cases digits with
  | nil => exact hrest
  | cons c digits =>
      have digit : c.isDigit = true := h c List.mem_cons_self
      refine ⟨fun plus => ?_, fun minus => ?_⟩
      · rw [plus] at digit
        exact absurd digit (by decide)
      · rw [minus] at digit
        exact absurd digit (by decide)

theorem Sign.split {sign : List Char} {negative : Bool} (h : Sign sign negative) {rest : List Char}
    (unsigned : Unsigned rest) : splitSign (sign ++ rest) = (negative, rest) := by
  cases h with
  | plus => rfl
  | minus => rfl
  | absent =>
      show splitSign rest = _
      unfold splitSign
      split
      · exact absurd rfl unsigned.1
      · exact absurd rfl unsigned.2
      · rfl

theorem sign_of_splitSign {cs rest : List Char} {negative : Bool}
    (h : splitSign cs = (negative, rest)) : ∃ sign, Sign sign negative ∧ cs = sign ++ rest := by
  unfold splitSign at h
  split at h <;> obtain ⟨rfl, rfl⟩ := Prod.mk.inj h
  · exact ⟨_, .plus, rfl⟩
  · exact ⟨_, .minus, rfl⟩
  · exact ⟨_, .absent, rfl⟩

theorem Exponent.read {cs : List Char} {exponent : Option (Bool × List Char)}
    (h : Exponent cs exponent) : exponentOfChars? cs = some exponent := by
  cases h with
  | absent => rfl
  | @power letter sign negative digits letters signed run nonempty =>
      have unsigned : Unsigned digits := by
        rw [← List.append_nil digits]
        exact unsigned_append run trivial
      have cut : splitDigits (digits ++ []) = (digits, []) := splitDigits_append run trivial
      rw [List.append_nil] at cut
      rw [exponentOfChars?, if_pos letters]
      simp [signed.split unsigned, cut, nonempty]

theorem exponent_of_read {cs : List Char} {exponent : Option (Bool × List Char)}
    (h : exponentOfChars? cs = some exponent) : Exponent cs exponent := by
  unfold exponentOfChars? at h
  split at h
  · cases h
    exact .absent
  · rename_i letter rest
    split at h
    · rename_i letters
      split at h
      rename_i negative unsigned hsign
      split at h
      · rename_i digits hdigits
        obtain ⟨sign, signed, rfl⟩ := sign_of_splitSign hsign
        obtain ⟨rfl, run⟩ := of_splitDigits hdigits
        rw [List.append_nil]
        split at h
        · cases h
        · rename_i nonempty
          cases h
          exact .power letters signed run (by simpa using nonempty)
      · cases h
    · cases h

theorem Exponent.ends {cs : List Char} {exponent : Option (Bool × List Char)}
    (h : Exponent cs exponent) : EndsDigits cs ∧ Unsigned cs ∧ cs.head? ≠ some '.' := by
  cases h with
  | absent => exact ⟨trivial, trivial, by simp⟩
  | power letters =>
      rcases letters with rfl | rfl
      · exact ⟨rfl, ⟨by decide, by decide⟩, by simp⟩
      · exact ⟨rfl, ⟨by decide, by decide⟩, by simp⟩

theorem Written.read {cs : List Char} {n : Numeral} (h : Written cs n) : ofChars? cs = some n := by
  cases h with
  | whole signed run nonempty powered =>
      obtain ⟨ends, unsigned, noPoint⟩ := powered.ends
      unfold ofChars?
      rw [signed.split (unsigned_append run unsigned)]
      simp only [splitDigits_append run ends]
      split
      · rename_i heq
        obtain ⟨-, rfl⟩ := Prod.mk.inj heq
        exact absurd rfl noPoint
      · rename_i heq
        obtain ⟨rfl, rfl⟩ := Prod.mk.inj heq
        simp [nonempty, powered.read]
  | @point sign negative digits fraction power exponent signed run more nonempty powered =>
      have unsigned : Unsigned ('.' :: (fraction ++ power)) := ⟨by decide, by decide⟩
      have ends : EndsDigits ('.' :: (fraction ++ power)) := rfl
      unfold ofChars?
      rw [signed.split (unsigned_append run unsigned)]
      simp only [splitDigits_append run ends, splitDigits_append more powered.ends.1]
      rw [if_neg (by simpa [or_iff_not_imp_left] using nonempty), powered.read]
      rfl

theorem written_of_read {cs : List Char} {n : Numeral} (h : ofChars? cs = some n) : Written cs n := by
  unfold ofChars? at h
  split at h
  rename_i negative unsigned hsign
  obtain ⟨sign, signed, rfl⟩ := sign_of_splitSign hsign
  split at h
  · rename_i digits rest hdigits
    obtain ⟨rfl, run⟩ := of_splitDigits hdigits
    split at h
    rename_i fraction power hfraction
    obtain ⟨rfl, more⟩ := of_splitDigits hfraction
    split at h
    · cases h
    · rename_i nonempty
      obtain ⟨exponent, powered, rfl⟩ := Option.map_eq_some_iff.1 h
      exact .point signed run more (by simpa [or_iff_not_imp_left] using nonempty)
        (exponent_of_read powered)
  · rename_i digits rest _ hdigits
    obtain ⟨rfl, run⟩ := of_splitDigits hdigits
    split at h
    · cases h
    · rename_i nonempty
      obtain ⟨exponent, powered, rfl⟩ := Option.map_eq_some_iff.1 h
      exact .whole signed run (by simpa using nonempty) (exponent_of_read powered)

/-- The reader accepts the texts of the grammar. -/
theorem ofChars?_eq_some_iff {cs : List Char} {n : Numeral} : ofChars? cs = some n ↔ Written cs n :=
  ⟨written_of_read, Written.read⟩

end SeriesLang.Numeral
