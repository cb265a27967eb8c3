import SeriesLang.Error
import SeriesLang.Expr.Basic
import SeriesLang.Expr.Token
import SeriesLang.Decimal.Numeral

/-! # Reading expressions

An expression is read token by token. The applications that are still open lie on a stack of frames;
a finished expression goes into the innermost one, or is the answer when none is open.
-/

namespace SeriesLang.Expr

/-- The deepest nesting of parentheses that is read. -/
def maxNesting : Nat := 256

/-- Does a word start like a number: an optional sign, an optional point and a digit? -/
def startsNumeric (word : List Char) : Bool :=
  let (_, cs) := Numeral.splitSign word
  match cs with
  | '.' :: d :: _ => d.isDigit
  | d :: _ => d.isDigit
  | [] => false

/-- The literal or symbol that a bare word stands for. -/
def ofWord (position : Nat) (word : String) : Except ParseError Expr :=
  match word.toList with
  | ['#', 't'] => .ok (.literal (.bool true))
  | ['#', 'f'] => .ok (.literal (.bool false))
  | '#' :: _ => .error ⟨position, .unknownLiteral word⟩
  | cs =>
    match Numeral.ofChars? cs with
    | some numeral =>
      if numeral.isInteger then
        match Word.ofInt? numeral.toInt with
        | some n => .ok (.literal (.int n))
        | none => .error ⟨position, .integerOutOfRange word⟩
      else if numeral.toFloat.isFinite then .ok (.literal (.float numeral.toFloat))
      else .error ⟨position, .floatOutOfRange word⟩
    | none =>
      if startsNumeric cs then .error ⟨position, .unknownLiteral word⟩
      else .ok (.symbol word)

/-- An application whose closing parenthesis has not been read. -/
inductive Frame where
  /-- Its operator has not been read either. -/
  | head (opened : Nat)
  /-- Its operator and some arguments have been read; a keyword may wait for its value. -/
  | body (opened : Nat) (application : Call) (pending : Option (Nat × String))

/-- How far the reading of an expression has come. -/
inductive Reading where
  /-- The open applications, innermost first. -/
  | pending (frames : List Frame)
  | complete (e : Expr)

namespace Reading

/-- Hand over a finished expression. -/
def supply (e : Expr) : List Frame → Except ParseError Reading
  | [] => .ok (.complete e)
  | .head opened :: _ => .error ⟨opened, .operatorMissing⟩
  | .body opened ⟨op, args, kwargs⟩ none :: rest =>
    .ok (.pending (.body opened ⟨op, args ++ [e], kwargs⟩ none :: rest))
  | .body opened ⟨op, args, kwargs⟩ (some (position, name)) :: rest =>
    match Application.addKeyword? name e kwargs with
    | some kwargs => .ok (.pending (.body opened ⟨op, args, kwargs⟩ none :: rest))
    | none => .error ⟨position, .duplicateKeyword name⟩

/-- Take a token where an expression may start. -/
def start (frames : List Frame) (position : Nat) : Token → Except ParseError Reading
  | .openParen =>
    if frames.length < maxNesting then .ok (.pending (.head position :: frames))
    else .error ⟨position, .nestedTooDeep maxNesting⟩
  | .closeParen => .error ⟨position, .unopenedParenthesis⟩
  | .str s => supply (.literal (.str s)) frames
  | .keyword name => .error ⟨position, .keywordOutsideCall name⟩
  | .word w => do supply (← ofWord position w) frames

/-- Take the next token. -/
def step (reading : Reading) (located : Nat × Token) : Except ParseError Reading :=
  let (position, token) := located
  match reading with
  | .complete _ =>
    match token with
    | .closeParen => .error ⟨position, .unopenedParenthesis⟩
    | _ => .error ⟨position, .trailingInput⟩
  | .pending [] => start [] position token
  | .pending (.head opened :: rest) =>
    match token with
    | .word w => do
      match ← ofWord position w with
      | .symbol op => .ok (.pending (.body opened ⟨op, [], []⟩ none :: rest))
      | _ => .error ⟨position, .operatorIsLiteral w⟩
    | .closeParen => .error ⟨opened, .emptyCall⟩
    | _ => .error ⟨position, .operatorMissing⟩
  | .pending (.body opened application (some (marked, name)) :: rest) =>
    match token with
    | .closeParen | .keyword _ => .error ⟨marked, .keywordWithoutValue name⟩
    | token => start (.body opened application (some (marked, name)) :: rest) position token
  | .pending (.body opened application none :: rest) =>
    match token with
    | .closeParen => supply (.call application) rest
    | .keyword name => .ok (.pending (.body opened application (some (position, name)) :: rest))
    | token =>
      if application.kwargs.isEmpty then
        start (.body opened application none :: rest) position token
      else .error ⟨position, .positionalAfterKeyword⟩

/-- The expression that has been read when the text ends at the given byte. -/
def finish (position : Nat) : Reading → Except ParseError Expr
  | .complete e => .ok e
  | .pending [] => .error ⟨position, .unexpectedEnd⟩
  | .pending (.head opened :: _) => .error ⟨opened, .unclosedParenthesis⟩
  | .pending (.body _ _ (some (marked, name)) :: _) => .error ⟨marked, .keywordWithoutValue name⟩
  | .pending (.body opened _ none :: _) => .error ⟨opened, .unclosedParenthesis⟩

end Reading

/-- Read a text as one expression. -/
def parse (text : String) : Except ParseError Expr := do
  let tokens ← Token.scan text.toList
  let reading ← tokens.foldlM Reading.step (.pending [])
  reading.finish text.utf8ByteSize

/-- Read a text as one expression, or fail with a parse error. -/
def ofText (text : String) : Except Error Expr :=
  match parse text with
  | .ok e => .ok e
  | .error e => .error (.parse e)

end SeriesLang.Expr
