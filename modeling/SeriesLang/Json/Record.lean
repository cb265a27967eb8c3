import SeriesLang.Json.Basic

/-! # Records in JSON

A record is an object with its fields, or an array with exactly the values of its fields in order.
A missing optional field is `null`; fields that the record does not have are ignored.
-/

namespace SeriesLang.Json

/-- The values of the fields of a record, `none` for a missing one. -/
def record? (names : List String) : Json → Option (List (Option Json))
  | .obj fields => some (names.map (Sorted.get? · fields))
  | .arr items => if items.length = names.length then some (items.map some) else none
  | _ => none

/-- A truth value. -/
def toBool? : Json → Option Bool
  | .bool b => some b
  | _ => none

/-- A text. -/
def toText? : Json → Option String
  | .str s => some s
  | _ => none

/-- A number; a whole one counts. -/
def toNumber? : Json → Option Float
  | .int n => some (Float.ofInt n)
  | .float v => some v
  | _ => none

/-- A whole number of 64 bits with a sign. -/
def toInt? : Json → Option Int
  | .int n => Word.ofInt? n
  | _ => none

/-- A whole number that is not negative. -/
def toNat? : Json → Option Nat
  | .int n => if 0 ≤ n then some n.toNat else none
  | _ => none

/-- A field that has to be there. -/
def required? {α : Type} (read : Json → Option α) : Option Json → Option α
  | some json => read json
  | none => none

/-- A field that may be missing or `null`. -/
def optional? {α : Type} (read : Json → Option α) : Option Json → Option (Option α)
  | some .null | none => some none
  | some json => (read json).map some

/-- The items of an array. -/
def items? {α : Type} (read : Json → Option α) : Json → Option (List α)
  | .arr items => items.mapM read
  | _ => none

end SeriesLang.Json
