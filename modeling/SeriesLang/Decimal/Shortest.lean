import SeriesLang.Decimal.Basic

/-! # Shortest decimals

The decimal with the fewest digits that reads back to a given positive double; of several with that
many digits the nearest one, and of two equally near ones the one that is asked for.
-/

namespace SeriesLang.Decimal

/-- Which of two equally near neighbours is taken. -/
inductive Tie where
  /-- The larger one. -/
  | larger
  /-- The one with the even last digit. -/
  | even
deriving DecidableEq, Repr

/-- Is the upper neighbour taken if the lower one has this coefficient? -/
def Tie.goesUp (tie : Tie) (lower : Nat) : Bool :=
  match tie with
  | .larger => true
  | .even => lower % 2 == 1

/-- The value of a positive finite double as a fraction of two positive integers. -/
def fractionOf (v : Float) : Nat × Nat :=
  let bits := v.toBits.toNat
  let field := bits / Nat.pow 2 52 % Nat.pow 2 11
  let mantissa := bits % Nat.pow 2 52
  let significand := if field = 0 then mantissa else mantissa + Nat.pow 2 52
  let power : Int := (max field 1 : Nat) - 1075
  if power < 0 then (significand, Nat.pow 2 power.natAbs) else (significand * Nat.pow 2 power.natAbs, 1)

/-- The decimal exponent of a positive fraction: the power of ten of its first digit. -/
def exponentOfFraction (num den : Nat) : Int :=
  if den ≤ num then (digitsOf (num / den)).length - 1
  else
    let inverse := (den + num - 1) / num
    0 - (digitsOf (inverse - 1)).length

/-- The two neighbours of a positive fraction among the decimals with `count` digits, the nearer one
    first. -/
def neighbours (tie : Tie) (num den count : Nat) : List Decimal :=
  let last : Int := exponentOfFraction num den - (count - 1)
  let (num, den) :=
    if last < 0 then (num * Nat.pow 10 last.natAbs, den) else (num, den * Nat.pow 10 last.natAbs)
  let below : Decimal := ⟨num / den, last⟩
  let above : Decimal := ⟨num / den + 1, last⟩
  let rest := num % den
  if rest = 0 then [below]
  else if den < 2 * rest ∨ (den = 2 * rest ∧ tie.goesUp below.coefficient) then [above, below]
  else [below, above]

/-- Take the trailing zeros of the coefficient into the exponent, at most `fuel` of them. -/
def stripZeros : Nat → Decimal → Decimal
  | 0, d => d
  | fuel + 1, d =>
    if d.coefficient % 10 = 0 ∧ d.coefficient ≠ 0 then
      stripZeros fuel ⟨d.coefficient / 10, d.exponent + 1⟩
    else d

/-- The shortest decimal for a positive finite double, without trailing zeros. Seventeen digits are
    always enough. -/
def shortest (tie : Tie) (v : Float) : Decimal :=
  let (num, den) := fractionOf v
  let candidates := ((List.range 17).map (· + 1)).flatMap (neighbours tie num den)
  match candidates.find? (fun d => d.toFloat.toBits == v.toBits) with
  | some d => stripZeros 17 d
  | none => ⟨0, 0⟩

end SeriesLang.Decimal
