import SeriesLang.Expr.Parser
import SeriesLang.Proofs.Decimal.Grammar

/-! # Literals and symbols

What a bare word stands for. A word that starts like a number has to be a numeral, and one behind a hash
a truth value; every other word is a symbol. So the kinds of words exclude each other.
-/

namespace SeriesLang

/-- Words that start like a number: `[+-]? \.? [0-9]`. -/
inductive Numeral.Begins : List Char → Prop
  | digit {sign negative d rest} (signed : Sign sign negative) (hd : d.isDigit = true) :
      Begins (sign ++ d :: rest)
  | point {sign negative d rest} (signed : Sign sign negative) (hd : d.isDigit = true) :
      Begins (sign ++ '.' :: d :: rest)

/-- The literals that a token stands for. -/
inductive Token.Denotes : Token → Literal → Prop
  | str {s} : Denotes (.str s) (.str s)
  | true : Denotes (.word "#t") (.bool true)
  | false : Denotes (.word "#f") (.bool false)
  | int {w n} (written : Numeral.Written w.toList n) (integer : n.isInteger = true)
      (fits : Word.Fits n.toInt) : Denotes (.word w) (.int n.toInt)
  | float {w n} (written : Numeral.Written w.toList n) (broken : n.isInteger = false)
      (finite : n.toFloat.isFinite = true) : Denotes (.word w) (.float n.toFloat)

/-- The words that are no literals and do not look like any. -/
def IsSymbol (name : String) : Prop :=
  name.toList.head? ≠ some '#' ∧ ¬Numeral.Begins name.toList

namespace Numeral

theorem Written.begins {cs : List Char} {n : Numeral} (h : Written cs n) : Begins cs := by
  cases h with
  | whole signed run nonempty =>
      obtain ⟨d, digits, rfl⟩ := List.exists_cons_of_ne_nil nonempty
      exact .digit signed (run d List.mem_cons_self)
  | @point sign negative digits fraction power exponent signed run more nonempty =>
      cases digits with
      | cons d digits => exact .digit signed (run d List.mem_cons_self)
      | nil =>
          obtain ⟨d, fraction, rfl⟩ :=
            List.exists_cons_of_ne_nil (nonempty.resolve_left fun h => h rfl)
          exact .point signed (more d List.mem_cons_self)

theorem Begins.plain {cs : List Char} (h : Begins cs) : cs.head? ≠ some '#' := by
  intro marked
  cases h with
  | digit signed hd =>
      cases signed with
      | absent =>
          rw [Option.some.inj marked] at hd
          exact absurd hd (by decide)
      | plus | minus => exact absurd (Option.some.inj marked) (by decide)
  | point signed =>
      cases signed <;> exact absurd (Option.some.inj marked) (by decide)

end Numeral

namespace Expr

open Numeral

theorem startsNumeric_iff {w : List Char} : startsNumeric w = true ↔ Begins w := by
  constructor
  · intro h
    unfold startsNumeric at h
    split at h
    rename_i negative cs hsign
    obtain ⟨sign, signed, rfl⟩ := sign_of_splitSign hsign
    split at h
    · exact .point signed h
    · exact .digit signed h
    · cases h
  · intro h
    have digit : ∀ {d : Char}, d.isDigit = true → d ≠ '+' ∧ d ≠ '-' ∧ d ≠ '.' := by
      rintro d hd
      refine ⟨?_, ?_, ?_⟩ <;> rintro rfl <;> exact absurd hd (by decide)
    cases h with
    | @digit sign negative d rest signed hd =>
        obtain ⟨plus, minus, point⟩ := digit hd
        have unsigned : Unsigned (d :: rest) := ⟨plus, minus⟩
        simp only [startsNumeric, signed.split unsigned]
        split
        · rename_i heq
          exact absurd (List.cons.inj heq).1 point
        · rename_i heq
          rw [← (List.cons.inj heq).1]
          exact hd
        · rename_i heq
          cases heq
    | @point sign negative d rest signed hd =>
        have unsigned : Unsigned ('.' :: d :: rest) := ⟨by decide, by decide⟩
        simp only [startsNumeric, signed.split unsigned]
        exact hd

/-- A word that does not start with a hash is a numeral or a symbol. -/
theorem ofWord_plain {w : String} (plain : w.toList.head? ≠ some '#') (position : Nat) :
    ofWord position w =
      match Numeral.ofChars? w.toList with
      | some n =>
        if n.isInteger then
          match Word.ofInt? n.toInt with
          | some i => .ok (.literal (.int i))
          | none => .error ⟨position, .integerOutOfRange w⟩
        else if n.toFloat.isFinite then .ok (.literal (.float n.toFloat))
        else .error ⟨position, .floatOutOfRange w⟩
      | none =>
        if startsNumeric w.toList then .error ⟨position, .unknownLiteral w⟩
        else .ok (.symbol w) := by
  unfold ofWord
  split
  · rename_i heq
    exact absurd (by rw [heq]; rfl) plain
  · rename_i heq
    exact absurd (by rw [heq]; rfl) plain
  · rename_i heq
    exact absurd (by rw [heq]; rfl) plain
  · rfl

theorem ofWord_literal {w : String} {l : Literal} (h : (Token.word w).Denotes l) (position : Nat) :
    ofWord position w = .ok (.literal l) := by
  cases h with
  | true => rfl
  | false => rfl
  | int written integer fits =>
      rw [ofWord_plain written.begins.plain, written.read]
      simp only [integer, if_true, Word.ofInt?_eq_some_iff.2 ⟨rfl, fits⟩]
  | float written broken finite =>
      rw [ofWord_plain written.begins.plain, written.read]
      simp only [broken, finite, Bool.false_eq_true, if_true, if_false]

theorem ofWord_symbol {w : String} (h : IsSymbol w) (position : Nat) :
    ofWord position w = .ok (.symbol w) := by
  obtain ⟨plain, noNumber⟩ := h
  have notRead : Numeral.ofChars? w.toList = none := by
    cases read : Numeral.ofChars? w.toList with
    | none => rfl
    | some n => exact absurd (ofChars?_eq_some_iff.1 read).begins noNumber
  rw [ofWord_plain plain, notRead]
  exact if_neg fun starts => noNumber (startsNumeric_iff.1 starts)

theorem of_ofWord {w : String} {e : Expr} {position : Nat} (h : ofWord position w = .ok e) :
    (∃ l, (Token.word w).Denotes l ∧ e = .literal l) ∨ IsSymbol w ∧ e = .symbol w := by
  unfold ofWord at h
  split at h
  · rename_i heq
    cases h
    rw [← String.ofList_toList (s := w), heq]
    exact .inl ⟨_, .true, rfl⟩
  · rename_i heq
    cases h
    rw [← String.ofList_toList (s := w), heq]
    exact .inl ⟨_, .false, rfl⟩
  · cases h
  · rename_i noHash
    split at h
    · rename_i n read
      have written := ofChars?_eq_some_iff.1 read
      split at h
      · rename_i integer
        split at h
        · rename_i i found
          cases h
          obtain ⟨rfl, fits⟩ := Word.ofInt?_eq_some_iff.1 found
          exact .inl ⟨_, .int written integer fits, rfl⟩
        · cases h
      · rename_i broken
        split at h
        · rename_i finite
          cases h
          exact .inl ⟨_, .float written (Bool.not_eq_true _ ▸ broken) finite, rfl⟩
        · cases h
    · split at h
      · cases h
      · rename_i noNumber
        cases h
        refine .inr ⟨⟨fun marked => ?_, fun begins => noNumber (startsNumeric_iff.2 begins)⟩, rfl⟩
        obtain ⟨rest, heq⟩ := List.head?_eq_some_iff.1 marked
        exact noHash rest heq

/-- A word that stands for nothing is reported where it starts. -/
theorem position_of_ofWord {w : String} {position : Nat} {err : ParseError}
    (h : ofWord position w = .error err) : err.position = position := by
  unfold ofWord at h
  split at h
  · cases h
  · cases h
  · cases h
    rfl
  · split at h
    · split at h
      · split at h <;> cases h
        rfl
      · split at h <;> cases h
        rfl
    · split at h <;> cases h
      rfl

end Expr

end SeriesLang
