import SeriesLang.Decimal.Basic

/-! # Numerals

The written form of a number: a sign, digits with an optional point, and an optional exponent. A
numeral without point and exponent is an integer; any numeral names a double.
-/

namespace SeriesLang

/-- The parts of a written number. -/
structure Numeral where
  negative : Bool
  /-- The digits before the point. -/
  whole : List Char
  /-- The digits after the point, if there is a point. -/
  fraction : Option (List Char)
  /-- The sign and the digits of the exponent, if there is one. -/
  exponent : Option (Bool × List Char)
deriving DecidableEq, Repr

namespace Numeral

/-- Split a sign from the front; a missing sign is positive. -/
def splitSign : List Char → Bool × List Char
  | '+' :: rest => (false, rest)
  | '-' :: rest => (true, rest)
  | cs => (false, cs)

/-- Split a run of decimal digits from the front. -/
def splitDigits (cs : List Char) : List Char × List Char :=
  (cs.takeWhile Char.isDigit, cs.dropWhile Char.isDigit)

/-- Read the rest of a numeral, behind its digits, as an exponent. -/
def exponentOfChars? : List Char → Option (Option (Bool × List Char))
  | [] => some none
  | c :: rest =>
    if c = 'e' ∨ c = 'E' then
      match splitSign rest with
      | (negative, cs) =>
        match splitDigits cs with
        | (digits, []) => if digits.isEmpty then none else some (some (negative, digits))
        | _ => none
    else none

/-- Read a whole text as a numeral. There is a digit before or behind the point, and an exponent has
    digits. -/
def ofChars? (cs : List Char) : Option Numeral :=
  match splitSign cs with
  | (negative, cs) =>
    match splitDigits cs with
    | (whole, '.' :: rest) =>
      match splitDigits rest with
      | (fraction, rest) =>
        if whole.isEmpty && fraction.isEmpty then none
        else (exponentOfChars? rest).map (⟨negative, whole, some fraction, ·⟩)
    | (whole, rest) =>
      if whole.isEmpty then none
      else (exponentOfChars? rest).map (⟨negative, whole, none, ·⟩)

/-- Does the numeral have neither a point nor an exponent? -/
def isInteger (n : Numeral) : Bool :=
  n.fraction.isNone && n.exponent.isNone

/-- The integer that the digits before the point name. -/
def toInt (n : Numeral) : Int :=
  if n.negative then -(Decimal.ofDigits n.whole) else Decimal.ofDigits n.whole

/-- The value of the exponent; a missing one is zero. -/
def exponentValue (n : Numeral) : Int :=
  match n.exponent with
  | none => 0
  | some (negative, digits) =>
    if negative then -(Decimal.ofDigits digits) else Decimal.ofDigits digits

/-- The number that the numeral names, without its sign. -/
def toDecimal (n : Numeral) : Decimal :=
  let fraction := n.fraction.getD []
  ⟨Decimal.ofDigits (n.whole ++ fraction), n.exponentValue - fraction.length⟩

/-- The double nearest to the number that the numeral names. -/
def toFloat (n : Numeral) : Float :=
  if n.negative then -n.toDecimal.toFloat else n.toDecimal.toFloat

end Numeral

/-- Read an integer in plain digits with an optional sign. -/
def Numeral.int? (text : String) : Option Int :=
  match Numeral.ofChars? text.toList with
  | some n => if n.isInteger then some n.toInt else none
  | none => none

/-- Read a double: a numeral, or a signed name of infinity or of the value that is not a number, in
    letters of either case. -/
def Numeral.float? (text : String) : Option Float :=
  match Numeral.ofChars? text.toList with
  | some n => some n.toFloat
  | none =>
    let (negative, name) := Numeral.splitSign text.toList
    let signed (v : Float) : Float := if negative then -v else v
    match String.ofList (name.map Char.toLower) with
    | "inf" | "infinity" => some (signed Decimal.infinity)
    | "nan" => some (signed (0.0 / 0.0))
    | _ => none

end SeriesLang
