import SeriesLang.Text.Blank

/-! # Tokens

A text is cut into parentheses, strings, keyword markers and bare words. Blanks and comments, from
a semicolon to the end of the line, separate tokens. Each token knows the byte at which it starts.
-/

namespace SeriesLang

/-- What can be wrong with the text of an expression. -/
inductive ParseFault where
  | keywordWithoutName
  | unknownEscape (c : Char)
  | unterminatedString
  | unknownLiteral (word : String)
  | integerOutOfRange (word : String)
  | floatOutOfRange (word : String)
  | nestedTooDeep (limit : Nat)
  | unopenedParenthesis
  | keywordOutsideCall (name : String)
  | unexpectedEnd
  | operatorIsLiteral (word : String)
  | operatorMissing
  | emptyCall
  | unclosedParenthesis
  | keywordWithoutValue (name : String)
  | duplicateKeyword (name : String)
  | positionalAfterKeyword
  | trailingInput
deriving DecidableEq, Repr

/-- The text that reports a fault. -/
def ParseFault.message : ParseFault → String
  | .keywordWithoutName => "keyword marker without a name"
  | .unknownEscape c => s!"unknown escape sequence `\\{c}`"
  | .unterminatedString => "unterminated string literal"
  | .unknownLiteral word => s!"unknown literal `{word}`"
  | .integerOutOfRange word => s!"integer `{word}` out of range"
  | .floatOutOfRange word => s!"float `{word}` out of range"
  | .nestedTooDeep limit => s!"expression nested deeper than {limit} levels"
  | .unopenedParenthesis => "unbalanced `)`"
  | .keywordOutsideCall name => s!"keyword `#:{name}` outside of an argument list"
  | .unexpectedEnd => "unexpected end of input"
  | .operatorIsLiteral word => s!"operator expected, found literal `{word}`"
  | .operatorMissing => "operator expected"
  | .emptyCall => "empty expression `()`"
  | .unclosedParenthesis => "unbalanced `(`: missing `)`"
  | .keywordWithoutValue name => s!"keyword `#:{name}` has no value"
  | .duplicateKeyword name => s!"duplicate keyword `#:{name}`"
  | .positionalAfterKeyword => "positional argument after keyword arguments"
  | .trailingInput => "unexpected input after expression"

/-- A fault and the byte of the text at which it was found. -/
structure ParseError where
  position : Nat
  fault : ParseFault
deriving DecidableEq, Repr

/-- A lexical unit of the language. -/
inductive Token where
  | openParen
  | closeParen
  | str (value : String)
  /-- A marker `#:name`. -/
  | keyword (name : String)
  /-- A literal, a symbol or an operator name. -/
  | word (text : String)
deriving DecidableEq, Repr

namespace Token

/-- Where a scan stands in the text. Characters seen so far are kept in reverse. -/
inductive Mode where
  | between
  | comment
  | inWord (start : Nat) (seen : List Char)
  | inString (start : Nat) (seen : List Char)
  /-- Behind a backslash in a string. -/
  | inEscape (start slash : Nat) (seen : List Char)
deriving DecidableEq, Repr

/-- Does the character end a word? -/
def isDelimiter (c : Char) : Bool :=
  Text.isBlank c || c == '(' || c == ')' || c == '"' || c == ';'

/-- The token of a complete word. -/
def ofWord (start : Nat) : List Char → Except ParseError Token
  | ['#', ':'] => .error ⟨start, .keywordWithoutName⟩
  | '#' :: ':' :: name => .ok (.keyword (String.ofList name))
  | cs => .ok (.word (String.ofList cs))

/-- What a character outside of words, strings and comments yields. -/
def Mode.enter (position : Nat) (c : Char) : List (Nat × Token) × Mode :=
  if Text.isBlank c then ([], .between)
  else match c with
    | ';' => ([], .comment)
    | '(' => ([(position, .openParen)], .between)
    | ')' => ([(position, .closeParen)], .between)
    | '"' => ([], .inString position [])
    | c => ([], .inWord position [c])

/-- Take one character: the tokens it completes and where the scan stands behind it. -/
def Mode.step (mode : Mode) (position : Nat) (c : Char) :
    Except ParseError (List (Nat × Token) × Mode) :=
  match mode with
  | .between => .ok (Mode.enter position c)
  | .comment => .ok ([], if c = '\n' then .between else .comment)
  | .inWord start seen =>
    if isDelimiter c then do
      let token ← ofWord start seen.reverse
      let (tokens, next) := Mode.enter position c
      return ((start, token) :: tokens, next)
    else .ok ([], .inWord start (c :: seen))
  | .inString start seen =>
    match c with
    | '"' => .ok ([(start, .str (String.ofList seen.reverse))], .between)
    | '\\' => .ok ([], .inEscape start position seen)
    | c => .ok ([], .inString start (c :: seen))
  | .inEscape start slash seen =>
    match c with
    | '"' => .ok ([], .inString start ('"' :: seen))
    | '\\' => .ok ([], .inString start ('\\' :: seen))
    | 'n' => .ok ([], .inString start ('\n' :: seen))
    | 't' => .ok ([], .inString start ('\t' :: seen))
    | c => .error ⟨slash, .unknownEscape c⟩

/-- What the end of the text yields. -/
def Mode.finish : Mode → Except ParseError (List (Nat × Token))
  | .between | .comment => .ok []
  | .inWord start seen => do return [(start, ← ofWord start seen.reverse)]
  | .inString start _ | .inEscape start _ _ => .error ⟨start, .unterminatedString⟩

/-- Cut the rest of a text, which starts at the given byte, into tokens. -/
def scanFrom (mode : Mode) (position : Nat) : List Char → Except ParseError (List (Nat × Token))
  | [] => mode.finish
  | c :: rest => do
    let (tokens, next) ← mode.step position c
    return tokens ++ (← scanFrom next (position + c.utf8Size) rest)

/-- Cut a text into tokens. -/
def scan (text : List Char) : Except ParseError (List (Nat × Token)) :=
  scanFrom .between 0 text

end Token

end SeriesLang
