import SeriesLang.Json.Basic
import SeriesLang.Decimal.Notation

/-! # Writing JSON

A value is written in one line without blanks. A float that JSON has no number for is written as
`null`.
-/

namespace SeriesLang.Json

/-- The characters that stand for one character of a string. -/
def escape (c : Char) : String :=
  if c = '"' then "\\\""
  else if c = '\\' then "\\\\"
  else if c.toNat < 0x20 then
    let high := Nat.digitChar (c.toNat / 16)
    let low := Nat.digitChar (c.toNat % 16)
    s!"\\u00{high}{low}"
  else c.toString

/-- The text of a string. -/
def renderString (s : String) : String :=
  "\"" ++ s.foldl (fun acc c => acc ++ escape c) "" ++ "\""

mutual

/-- Write a value behind a text. -/
def renderOnto (out : String) : Json → String
  | .null => out ++ "null"
  | .bool b => out ++ (if b then "true" else "false")
  | .int n => out ++ toString n
  | .float v => out ++ (if v.isFinite then Decimal.text .json v else "null")
  | .str s => out ++ renderString s
  | .arr items => (renderItems (out.push '[') "" items).push ']'
  | .obj fields => (renderFields (out.push '\x7b') "" fields).push '\x7d'

/-- Write the items of an array behind a text, the first one behind a separator. -/
def renderItems (out separator : String) : List Json → String
  | [] => out
  | item :: rest => renderItems (renderOnto (out ++ separator) item) "," rest

/-- Write the fields of an object behind a text, the first one behind a separator. -/
def renderFields (out separator : String) : List (String × Json) → String
  | [] => out
  | (name, value) :: rest =>
    renderFields (renderOnto (out ++ separator ++ renderString name ++ ":") value) "," rest

end

/-- The text of a value. -/
def render (json : Json) : String :=
  renderOnto "" json

end SeriesLang.Json
