import SeriesLang.Json.Record
import SeriesLang.Series.Basic
import SeriesLang.Time.Pattern
import SeriesLang.Time.Text

/-! # Stored forms

The JSON forms of windows, series, their options and their metadata, and how they are read back.
-/

namespace SeriesLang

/-- What is known of a stored series beside its points. -/
structure SeriesMeta where
  timezoneAware : Bool := false
  indexType : String := "datetime64[ns]"
  valueType : String := "float64"
deriving DecidableEq, Repr

namespace SeriesMeta

/-- The stored form of metadata. -/
def toJson (m : SeriesMeta) : Json :=
  .ofFields [("tzaware", .bool m.timezoneAware), ("index_type", .str m.indexType),
    ("value_type", .str m.valueType)]

/-- Read metadata from its stored form. -/
def ofJson? (json : Json) : Option SeriesMeta := do
  match ← json.record? ["tzaware", "index_type", "value_type"] with
  | [timezoneAware, indexType, valueType] =>
    return ⟨← Json.required? Json.toBool? timezoneAware, ← Json.required? Json.toText? indexType,
      ← Json.required? Json.toText? valueType⟩
  | _ => none

end SeriesMeta

namespace Instant

/-- The stored form of an instant. -/
def toJson (t : Instant) : Json :=
  .str t.iso

/-- Read an instant from its stored form. -/
def ofJson? (json : Json) : Option Instant :=
  json.toText?.bind ofStoredText?

end Instant

namespace Window

/-- The stored form of a window. -/
def toJson (w : Window) : Json :=
  let bound (b : Option Instant) : Json := (b.map Instant.toJson).getD .null
  .ofFields [("from", bound w.lower), ("to", bound w.upper)]

/-- Read a window from its stored form. -/
def ofJson? (json : Json) : Option Window := do
  match ← json.record? ["from", "to"] with
  | [lower, upper] =>
    return ⟨← Json.optional? Instant.ofJson? lower, ← Json.optional? Instant.ofJson? upper⟩
  | _ => none

end Window

namespace FillMethod

/-- The stored form of a fill method. -/
def toJson : FillMethod → Json
  | .forward => .str "Forward"
  | .backward => .str "Backward"

/-- Read a fill method: its name, or an object with nothing under its name. -/
def ofJson? : Json → Option FillMethod
  | .str "Forward" | .obj [("Forward", .null)] => some .forward
  | .str "Backward" | .obj [("Backward", .null)] => some .backward
  | _ => none

end FillMethod

namespace FillPolicy

/-- The stored form of a fill policy. -/
def toJson : FillPolicy → Json
  | .value v => .ofFields [("Value", .float v)]
  | .methods list => .ofFields [("Methods", .arr (list.map FillMethod.toJson))]

/-- Read a fill policy from its stored form. -/
def ofJson? : Json → Option FillPolicy
  | .obj [("Value", v)] => v.toNumber?.map .value
  | .obj [("Methods", list)] => (list.items? FillMethod.ofJson?).map .methods
  | _ => none

end FillPolicy

namespace SeriesOptions

/-- The stored form of series options. -/
def toJson (o : SeriesOptions) : Json :=
  .ofFields [("fill", (o.fill.map FillPolicy.toJson).getD .null),
    ("limit", (o.limit.map (fun n => Json.int n)).getD .null),
    ("weight", (o.weight.map Json.float).getD .null)]

/-- Read series options from their stored form. -/
def ofJson? (json : Json) : Option SeriesOptions := do
  match ← json.record? ["fill", "limit", "weight"] with
  | [fill, limit, weight] =>
    return ⟨← Json.optional? FillPolicy.ofJson? fill, ← Json.optional? Json.toNat? limit,
      ← Json.optional? Json.toNumber? weight⟩
  | _ => none

end SeriesOptions

namespace Series

/-- The stored form of a series: its points under the texts of their instants. Options are not
    stored. -/
def toJson (s : Series) : Json :=
  .ofFields [("points", .ofFields (s.points.map (fun p => (p.1.iso, .float p.2))))]

/-- Read a series from its stored form. -/
def ofJson? (json : Json) : Option Series := do
  match ← json.record? ["points"] with
  | [some (.obj fields)] =>
    let points ← fields.mapM (fun (text, value) => do
      return (← Instant.ofStoredText? text, ← value.toNumber?))
    return ofPoints points
  | _ => none

end Series

end SeriesLang
