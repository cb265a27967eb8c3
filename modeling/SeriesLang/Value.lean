import SeriesLang.Decimal.Notation
import SeriesLang.Series.Basic
import SeriesLang.Text.Quoted
import SeriesLang.Time.Text

/-! # Values

What an expression evaluates to.
-/

namespace SeriesLang

/-- A value of the language. -/
inductive Value where
  | nil
  | bool (b : Bool)
  | int (n : Int)
  | float (v : Float)
  | str (s : String)
  | timestamp (t : Instant)
  | series (s : Series)
deriving DecidableEq, Inhabited

namespace Value

/-- The name of the type of a value, as messages give it. -/
def typeName : Value → String
  | .nil => "nil"
  | .bool _ => "bool"
  | .int _ => "int"
  | .float _ => "float"
  | .str _ => "string"
  | .timestamp _ => "timestamp"
  | .series _ => "series"

/-- The value as a number. -/
def number? : Value → Option Float
  | .int n => some (Float.ofInt n)
  | .float v => some v
  | _ => none

/-- The value as a series. -/
def series? : Value → Option Series
  | .series s => some s
  | _ => none

/-- Is the value nil? -/
def isNil : Value → Bool
  | .nil => true
  | _ => false

/-- The text of a value in messages. -/
def display : Value → String
  | .nil => "nil"
  | .bool b => if b then "#t" else "#f"
  | .int n => toString n
  | .float v => Decimal.text .plain v
  | .str s => Text.quoted s
  | .timestamp t => t.display
  | .series s =>
    let size := s.size
    s!"<series of {size} points>"

end Value

end SeriesLang
