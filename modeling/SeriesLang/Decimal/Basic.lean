/-! # Decimal numbers

A non-negative number written with finitely many decimal digits, and the double nearest to it.
-/

namespace SeriesLang

/-- The number `coefficient · 10 ^ exponent`. -/
structure Decimal where
  coefficient : Nat
  exponent : Int
deriving DecidableEq, Repr

namespace Decimal

/-- The value of a run of decimal digits, most significant first. -/
def ofDigits (digits : List Char) : Nat :=
  digits.foldl (fun n d => n * 10 + (d.toNat - '0'.toNat)) 0

/-- The decimal digits of a number, most significant first. -/
def digitsOf (n : Nat) : List Char :=
  Nat.toDigits 10 n

/-- Positive infinity. -/
def infinity : Float := Float.ofBits 0x7FF0000000000000

/-- The double nearest to the number; a tie goes to the even one, and what is too large is infinite.
    The exponents at which the answer is plainly zero or infinite are settled by their size. -/
def toFloat (d : Decimal) : Float :=
  if d.coefficient = 0 then 0
  else
    let magnitude := (digitsOf d.coefficient).length + d.exponent
    if magnitude > 310 then infinity
    else if magnitude < -330 then 0
    else Float.ofScientific d.coefficient (d.exponent < 0) d.exponent.natAbs

end Decimal

end SeriesLang
