import SeriesLang.Json.Basic
import SeriesLang.Decimal.Numeral

/-! # Reading JSON

A text is read as one JSON value. A number without point and exponent is whole if it fits in 64
bits, with or without a sign. Any other number is a float, which `Json.ofNumber?` makes from its digits
in one rounded step each: fast, but not always the float nearest to the number.
-/

namespace SeriesLang.Json

/-- The blanks of JSON. -/
def isSpace (c : Char) : Bool :=
  c == ' ' || c == '\t' || c == '\n' || c == '\r'

/-- Drop the blanks at the front. -/
def skipSpace (cs : List Char) : List Char :=
  cs.dropWhile isSpace

/-- The value of a hexadecimal digit. -/
def hexDigit? (c : Char) : Option Nat :=
  if c.isDigit then some (c.toNat - '0'.toNat)
  else if 'a' ≤ c ∧ c ≤ 'f' then some (c.toNat - 'a'.toNat + 10)
  else if 'A' ≤ c ∧ c ≤ 'F' then some (c.toNat - 'A'.toNat + 10)
  else none

/-- Four hexadecimal digits at the front. -/
def hexUnit? : List Char → Option (Nat × List Char)
  | a :: b :: c :: d :: rest => do
    let a ← hexDigit? a
    let b ← hexDigit? b
    let c ← hexDigit? c
    let d ← hexDigit? d
    return (((a * 16 + b) * 16 + c) * 16 + d, rest)
  | _ => none

/-- The character behind `\u`: one unit, or a pair of surrogates. -/
def escapedUnit? (cs : List Char) : Option (Char × List Char) := do
  let (unit, rest) ← hexUnit? cs
  if 0xD800 ≤ unit ∧ unit < 0xDC00 then
    match rest with
    | '\\' :: 'u' :: rest => do
      let (low, rest) ← hexUnit? rest
      if 0xDC00 ≤ low ∧ low < 0xE000 then
        return (Char.ofNat (0x10000 + (unit - 0xD800) * 0x400 + (low - 0xDC00)), rest)
      else none
    | _ => none
  else if 0xDC00 ≤ unit ∧ unit < 0xE000 then none
  else return (Char.ofNat unit, rest)

/-- The rest of a string behind its opening quote. The characters so far are kept in reverse. -/
def readString : Nat → List Char → List Char → Option (String × List Char)
  | 0, _, _ => none
  | fuel + 1, seen, cs =>
    match cs with
    | '"' :: rest => some (String.ofList seen.reverse, rest)
    | '\\' :: 'u' :: rest => do
      let (c, rest) ← escapedUnit? rest
      readString fuel (c :: seen) rest
    | '\\' :: c :: rest => do
      let c ← match c with
        | '"' => some '"'
        | '\\' => some '\\'
        | '/' => some '/'
        | 'b' => some '\x08'
        | 'f' => some '\x0c'
        | 'n' => some '\n'
        | 'r' => some '\r'
        | 't' => some '\t'
        | _ => none
      readString fuel (c :: seen) rest
    | c :: rest => if c.toNat < 0x20 then none else readString fuel (c :: seen) rest
    | [] => none

/-- Does the character belong to a number? -/
def isNumeric (c : Char) : Bool :=
  c.isDigit || c == '-' || c == '+' || c == '.' || c == 'e' || c == 'E'

/-- Append decimal digits to a number as long as it fits in 64 bits; also the digits that are left. -/
def appendDigits (n : Nat) : List Char → Nat × List Char
  | [] => (n, [])
  | d :: rest =>
    let longer := n * 10 + Decimal.ofDigits [d]
    if longer ≤ 18446744073709551615 then appendDigits longer rest else (n, d :: rest)

/-- The double nearest to a power of ten. -/
def powerOfTen (n : Nat) : Float :=
  Decimal.toFloat ⟨1, n⟩

/-- A double divided by a power of ten, in steps of at most `10 ^ 308`. -/
def divideByPower (v : Float) (n : Nat) : Float :=
  if n ≤ 308 then v / powerOfTen n
  else if v == 0 then v
  else divideByPower (v / powerOfTen 308) (n - 308)
termination_by n

/-- A double times a power of ten, unless that is too large. -/
def timesPower? (v : Float) (n : Nat) : Option Float :=
  if v == 0 then some v
  else if n ≤ 308 then some (v * powerOfTen n) |>.filter Float.isFinite
  else none

/-- The float that a numeral without its sign is read as: the digits that fit in 64 bits, as a double,
    times or divided by a power of ten. -/
def magnitude? (numeral : Numeral) : Option Float :=
  let fraction := numeral.fraction.getD []
  let (significand, dropped) := appendDigits 0 numeral.whole
  let (significand, ignored) := appendDigits significand fraction
  let exponent : Int :=
    numeral.exponentValue + dropped.length - (fraction.length - ignored.length : Nat)
  if exponent < 0 then some (divideByPower (Float.ofNat significand) exponent.natAbs)
  else timesPower? (Float.ofNat significand) exponent.natAbs

/-- The value of a written number. -/
def ofNumber? (cs : List Char) : Option Json := do
  let numeral ← Numeral.ofChars? cs
  if numeral.whole.isEmpty || (numeral.fraction.map List.isEmpty).getD false || cs.head? = some '+' then
    none
  else
    let n := numeral.toInt
    if numeral.isInteger && -9223372036854775808 ≤ n && n ≤ 18446744073709551615 && !(numeral.negative && n == 0) then
      return .int n
    else
      let v ← magnitude? numeral
      return .float (if numeral.negative then -v else v)

mutual

/-- Read a value at the front. -/
def readValue : Nat → List Char → Option (Json × List Char)
  | 0, _ => none
  | fuel + 1, cs =>
    match skipSpace cs with
    | 'n' :: 'u' :: 'l' :: 'l' :: rest => some (.null, rest)
    | 't' :: 'r' :: 'u' :: 'e' :: rest => some (.bool true, rest)
    | 'f' :: 'a' :: 'l' :: 's' :: 'e' :: rest => some (.bool false, rest)
    | '"' :: rest => (readString (rest.length + 1) [] rest).map (fun (s, rest) => (.str s, rest))
    | '[' :: rest =>
      match skipSpace rest with
      | ']' :: rest => some (.arr [], rest)
      | rest => (readItems fuel [] rest).map (fun (items, rest) => (.arr items, rest))
    | '{' :: rest =>
      match skipSpace rest with
      | '}' :: rest => some (.obj [], rest)
      | rest => (readFields fuel [] rest).map (fun (fields, rest) => (.obj fields, rest))
    | cs => (ofNumber? (cs.takeWhile isNumeric)).map (·, cs.dropWhile isNumeric)

/-- Read the items of an array up to its bracket. The items so far are kept in reverse. -/
def readItems : Nat → List Json → List Char → Option (List Json × List Char)
  | 0, _, _ => none
  | fuel + 1, seen, cs => do
    let (item, rest) ← readValue fuel cs
    match skipSpace rest with
    | ',' :: rest => readItems fuel (item :: seen) rest
    | ']' :: rest => some ((item :: seen).reverse, rest)
    | _ => none

/-- Read the fields of an object up to its brace. -/
def readFields : Nat → List (String × Json) → List Char → Option (List (String × Json) × List Char)
  | 0, _, _ => none
  | fuel + 1, seen, cs => do
    match skipSpace cs with
    | '"' :: rest =>
      let (name, rest) ← readString (rest.length + 1) [] rest
      match skipSpace rest with
      | ':' :: rest =>
        let (value, rest) ← readValue fuel rest
        let seen := Sorted.put name value seen
        match skipSpace rest with
        | ',' :: rest => readFields fuel seen rest
        | '}' :: rest => some (seen, rest)
        | _ => none
      | _ => none
    | _ => none

end

/-- Read a whole text as one value. -/
def ofString? (text : String) : Option Json := do
  let cs := text.toList
  let (value, rest) ← readValue (2 * cs.length + 2) cs
  if (skipSpace rest).isEmpty then return value else none

end SeriesLang.Json
