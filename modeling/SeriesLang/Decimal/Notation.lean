import SeriesLang.Decimal.Shortest

/-! # Notation of doubles

How a double is written: its shortest digits, laid out positionally or with an exponent as the
layout says.
-/

namespace SeriesLang.Decimal

/-- The choices that a notation leaves open. -/
structure Layout where
  /-- The powers of ten of the first digit that are written positionally, both ends included; all of
      them when missing. -/
  positional : Option (Int × Int)
  /-- Write a point and a zero behind a whole number. -/
  keepsPoint : Bool
  /-- Which of two equally near shortest decimals is written. -/
  tie : Tie
deriving DecidableEq, Repr

/-- Literals are written positionally from `0.0001` to below `10 ^ 16`, and always show that they
    are not integers. -/
def Layout.literal : Layout := ⟨some (-4, 15), true, .larger⟩

/-- JSON numbers are written positionally from `0.00001` to below `10 ^ 16`; floats always show that
    they are no integers. Of two equally near decimals the even one is written. -/
def Layout.json : Layout := ⟨some (-5, 15), true, .even⟩

/-- Values are shown positionally, whole ones as integers. -/
def Layout.plain : Layout := ⟨none, false, .larger⟩

/-- Does the layout write positionally a number whose first digit has this power of ten? -/
def Layout.isPositional (layout : Layout) (power : Int) : Bool :=
  match layout.positional with
  | none => true
  | some (least, greatest) => least ≤ power && power ≤ greatest

/-- Write digits with the point behind the first `point` of them. -/
def positionalChars (keepsPoint : Bool) (digits : List Char) (point : Int) : List Char :=
  if point ≤ 0 then '0' :: '.' :: (List.replicate point.natAbs '0' ++ digits)
  else
    let whole := point.toNat
    if digits.length ≤ whole then
      digits ++ List.replicate (whole - digits.length) '0' ++ (if keepsPoint then ['.', '0'] else [])
    else digits.take whole ++ '.' :: digits.drop whole

/-- Write digits with the point behind the first one and an exponent. -/
def scientificChars (digits : List Char) (power : Int) : List Char :=
  let exponent := 'e' :: (toString power).toList
  match digits with
  | [] => exponent
  | [d] => d :: exponent
  | d :: rest => d :: '.' :: rest ++ exponent

/-- Write a positive finite double. -/
def positiveChars (layout : Layout) (v : Float) : List Char :=
  let d := shortest layout.tie v
  let digits := digitsOf d.coefficient
  let point : Int := digits.length + d.exponent
  if layout.isPositional (point - 1) then positionalChars layout.keepsPoint digits point
  else scientificChars digits (point - 1)

/-- Is the sign bit set? -/
def isNegative (v : Float) : Bool :=
  v.toBits >>> 63 == 1

/-- Write a double. -/
def chars (layout : Layout) (v : Float) : List Char :=
  if v.isNaN then "NaN".toList
  else
    let sign := if isNegative v then ['-'] else []
    let magnitude := v.abs
    if v.isInf then sign ++ "inf".toList
    else if magnitude == 0 then sign ++ (if layout.keepsPoint then "0.0".toList else ['0'])
    else sign ++ positiveChars layout magnitude

/-- The text of a double in a layout. -/
def text (layout : Layout) (v : Float) : String :=
  String.ofList (chars layout v)

end SeriesLang.Decimal
