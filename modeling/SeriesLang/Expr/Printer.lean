import SeriesLang.Expr.Basic
import SeriesLang.Digest

/-! # Writing expressions

The canonical text of an expression, which equal expressions share, and its digest.
-/

namespace SeriesLang

/-- The characters that stand for one character of a string literal. -/
def Literal.escape : Char → List Char
  | '"' => ['\\', '"']
  | '\\' => ['\\', '\\']
  | '\n' => ['\\', 'n']
  | '\t' => ['\\', 't']
  | c => [c]

/-- The text of a literal. -/
def Literal.chars : Literal → List Char
  | .int n => (toString n).toList
  | .float v => Decimal.chars .literal v
  | .str s => '"' :: (s.toList.flatMap Literal.escape ++ ['"'])
  | .bool b => if b then ['#', 't'] else ['#', 'f']

namespace Expr

mutual

/-- The canonical text, as characters. -/
def chars : Expr → List Char
  | .literal l => l.chars
  | .symbol name => name.toList
  | .call ⟨op, args, kwargs⟩ =>
    '(' :: (op.toList ++ (charsOfArgs args ++ (charsOfKwargs kwargs ++ [')'])))

/-- Positional arguments, each behind a space. -/
def charsOfArgs : List Expr → List Char
  | [] => []
  | e :: rest => ' ' :: (chars e ++ charsOfArgs rest)

/-- Keywords with their values, each behind a space. -/
def charsOfKwargs : List (String × Expr) → List Char
  | [] => []
  | (name, e) :: rest => ' ' :: '#' :: ':' :: (name.toList ++ ' ' :: (chars e ++ charsOfKwargs rest))

end

/-- The canonical text of an expression. -/
def canonical (e : Expr) : String :=
  String.ofList e.chars

/-- The digest of the canonical text. -/
def contentHash (e : Expr) : String :=
  Digest.hex e.canonical

end Expr

end SeriesLang
