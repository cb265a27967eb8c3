import SeriesLang.Sorted
import SeriesLang.Word

/-! # JSON values

The values that formulas carry as metadata and bindings. The fields of an object are kept sorted by
name, each name once, so objects with the same fields are equal. A whole number is kept apart from a
float of the same value.
-/

namespace SeriesLang

/-- A JSON value. -/
inductive Json where
  | null
  | bool (value : Bool)
  | int (value : Int)
  | float (value : Float)
  | str (value : String)
  | arr (items : List Json)
  | obj (fields : List (String × Json))
deriving Inhabited

namespace Json

/-- The object with these fields; of several fields of one name the last counts. -/
def ofFields (fields : List (String × Json)) : Json :=
  .obj (Sorted.putAll fields [])

/-- The fields of an object; other values have none. -/
def fields : Json → List (String × Json)
  | .obj fields => fields
  | _ => []

/-- The value of a field of an object. -/
def field? (json : Json) (name : String) : Option Json :=
  Sorted.get? name json.fields

/-- Is the value an object? -/
def isObject : Json → Bool
  | .obj _ => true
  | _ => false

/-- The fields of a second object on top of those of a first one. An object takes the place of a value
    that is none, and a value that is no object changes nothing. -/
def merge : Json → Json → Json
  | .obj base, .obj top => .obj (Sorted.putAll top base)
  | _, .obj top => .obj top
  | base, _ => base

mutual

/-- Equality of values is decided part by part. -/
def decEq : (a b : Json) → Decidable (a = b)
  | .null, .null => .isTrue rfl
  | .bool a, .bool b => decidable_of_iff (a = b) (by simp)
  | .int a, .int b => decidable_of_iff (a = b) (by simp)
  | .float a, .float b => decidable_of_iff (a = b) (by simp)
  | .str a, .str b => decidable_of_iff (a = b) (by simp)
  | .arr as, .arr bs =>
    match decEqItems as bs with
    | .isTrue h => .isTrue (by simp [h])
    | .isFalse h => .isFalse (by simp [h])
  | .obj as, .obj bs =>
    match decEqFields as bs with
    | .isTrue h => .isTrue (by simp [h])
    | .isFalse h => .isFalse (by simp [h])
  | .null, .bool _ | .null, .int _ | .null, .float _ | .null, .str _ | .null, .arr _ | .null, .obj _
  | .bool _, .null | .bool _, .int _ | .bool _, .float _ | .bool _, .str _ | .bool _, .arr _
  | .bool _, .obj _ | .int _, .null | .int _, .bool _ | .int _, .float _ | .int _, .str _
  | .int _, .arr _ | .int _, .obj _ | .float _, .null | .float _, .bool _ | .float _, .int _
  | .float _, .str _ | .float _, .arr _ | .float _, .obj _ | .str _, .null | .str _, .bool _
  | .str _, .int _ | .str _, .float _ | .str _, .arr _ | .str _, .obj _ | .arr _, .null
  | .arr _, .bool _ | .arr _, .int _ | .arr _, .float _ | .arr _, .str _ | .arr _, .obj _
  | .obj _, .null | .obj _, .bool _ | .obj _, .int _ | .obj _, .float _ | .obj _, .str _
  | .obj _, .arr _ => .isFalse (by simp)

/-- Equality of item lists. -/
def decEqItems : (a b : List Json) → Decidable (a = b)
  | [], [] => .isTrue rfl
  | [], _ :: _ | _ :: _, [] => .isFalse (by simp)
  | a :: as, b :: bs =>
    match decEq a b, decEqItems as bs with
    | .isTrue h, .isTrue k => .isTrue (by simp [h, k])
    | .isFalse h, _ => .isFalse (by simp [h])
    | _, .isFalse h => .isFalse (by simp [h])

/-- Equality of field lists. -/
def decEqFields : (a b : List (String × Json)) → Decidable (a = b)
  | [], [] => .isTrue rfl
  | [], _ :: _ | _ :: _, [] => .isFalse (by simp)
  | (k, a) :: as, (l, b) :: bs =>
    match decEq a b, decEqFields as bs with
    | .isTrue h, .isTrue g => decidable_of_iff (k = l) (by simp [h, g])
    | .isFalse h, _ => .isFalse (by simp [h])
    | _, .isFalse h => .isFalse (by simp [h])

end

instance : DecidableEq Json := decEq

end Json

end SeriesLang
