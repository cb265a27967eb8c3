/-! # Blank characters

The characters that separate words: the `White_Space` property of Unicode. Trimming takes blanks
from the ends of a text and nothing else.
-/

namespace SeriesLang.Text

/-- The characters of the Unicode property `White_Space`. -/
def isBlank (c : Char) : Bool :=
  let n := c.toNat
  (0x09 ≤ n && n ≤ 0x0D) || n == 0x20 || n == 0x85 || n == 0xA0 || n == 0x1680
    || (0x2000 ≤ n && n ≤ 0x200A) || n == 0x2028 || n == 0x2029 || n == 0x202F || n == 0x205F
    || n == 0x3000

/-- Drop the blanks at the front. -/
def dropBlanks (cs : List Char) : List Char :=
  cs.dropWhile isBlank

/-- Drop the blanks at both ends. -/
def trimBlanks (cs : List Char) : List Char :=
  (dropBlanks (dropBlanks cs).reverse).reverse

/-- The text without the blanks at its front. -/
def trimStart (s : String) : String :=
  String.ofList (dropBlanks s.toList)

/-- The text without the blanks at its ends. -/
def trim (s : String) : String :=
  String.ofList (trimBlanks s.toList)

end SeriesLang.Text
