/-! # Splitting texts

The parts of a text between the places where a character stands.
-/

namespace SeriesLang.Text

/-- The parts of a text between separators. -/
def splitAt (separator : Char) (cs : List Char) : List (List Char) :=
  cs.foldr (fun c parts =>
    if c = separator then [] :: parts
    else match parts with
      | part :: rest => (c :: part) :: rest
      | [] => [[c]]) [[]]

end SeriesLang.Text
