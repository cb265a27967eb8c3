import SeriesLang.Json.Reader
import SeriesLang.Json.Writer

/-! # Keeping JSON values

Tables keep a JSON value as its text, so what comes back is what that text reads as. Only floats may
differ from what was given: reading rounds more than once.
-/

namespace SeriesLang.Json

/-- The value that comes back once a value is kept as its text. -/
def kept (json : Json) : Json :=
  (ofString? json.render).getD json

end SeriesLang.Json
