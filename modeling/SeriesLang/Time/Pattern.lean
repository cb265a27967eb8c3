import SeriesLang.Text.Blank
import SeriesLang.Time.Instant

/-! # Reading instants

An instant is read against a pattern of fields and literal characters. Blanks may stand before each
number; the whole text has to be used up.
-/

namespace SeriesLang.Time

/-- An element of a pattern. -/
inductive PatternItem where
  /-- A year of up to four digits, or of any number of digits behind a sign. -/
  | year
  | month
  | day
  | hour
  | minute
  /-- A second up to 60, which is a leap second. -/
  | second
  /-- A point and digits, of which nine count, or nothing. -/
  | fraction
  /-- Any number of blanks. -/
  | blanks
  | literal (c : Char)
deriving DecidableEq, Repr

/-- The fields read so far. -/
structure Fields where
  year : Int := 0
  month : Nat := 1
  day : Nat := 1
  hour : Nat := 0
  minute : Nat := 0
  second : Nat := 0
  nanos : Nat := 0
deriving DecidableEq, Repr

/-- The value of a run of decimal digits. -/
def digitsValue (digits : List Char) : Nat :=
  digits.foldl (fun n d => n * 10 + (d.toNat - '0'.toNat)) 0

/-- Read a number of at least one and, with a limit, at most that many digits. -/
def readNumber? (limit : Option Nat) (cs : List Char) : Option (Nat × List Char) :=
  let run := cs.takeWhile Char.isDigit
  let digits := match limit with
    | some n => run.take n
    | none => run
  if digits.isEmpty then none else some (digitsValue digits, cs.drop digits.length)

/-- Read a year. -/
def readYear? (cs : List Char) : Option (Int × List Char) :=
  match cs with
  | '+' :: rest => (readNumber? none rest).map (fun (n, rest) => ((n : Int), rest))
  | '-' :: rest => (readNumber? none rest).map (fun (n, rest) => (-(n : Int), rest))
  | cs => (readNumber? (some 4) cs).map (fun (n, rest) => ((n : Int), rest))

/-- Read the digits of a fraction of a second as nanoseconds. -/
def readFraction? (cs : List Char) : Option (Nat × List Char) :=
  let run := cs.takeWhile Char.isDigit
  let digits := run.take 9
  if digits.isEmpty then none
  else some (digitsValue digits * Nat.pow 10 (9 - digits.length), cs.drop run.length)

/-- Read one element at the front. -/
def PatternItem.read? (item : PatternItem) (fields : Fields) (cs : List Char) :
    Option (Fields × List Char) :=
  let number (limit : Nat) (set : Nat → Fields) : Option (Fields × List Char) :=
    match readNumber? (some 2) (Text.dropBlanks cs) with
    | some (n, rest) => if n ≤ limit then some (set n, rest) else none
    | none => none
  match item with
  | .year => (readYear? (Text.dropBlanks cs)).map (fun (n, rest) => ({ fields with year := n }, rest))
  | .month => number 12 (fun n => { fields with month := n })
  | .day => number 31 (fun n => { fields with day := n })
  | .hour => number 23 (fun n => { fields with hour := n })
  | .minute => number 59 (fun n => { fields with minute := n })
  | .second => number 60 (fun n => { fields with second := n })
  | .fraction =>
    match cs with
    | '.' :: rest => (readFraction? rest).map (fun (n, rest) => ({ fields with nanos := n }, rest))
    | cs => some (fields, cs)
  | .blanks => some (fields, Text.dropBlanks cs)
  | .literal c =>
    match cs with
    | d :: rest => if c = d then some (fields, rest) else none
    | [] => none

/-- Read a whole text against a pattern. -/
def readPattern? : List PatternItem → Fields → List Char → Option Fields
  | [], fields, [] => some fields
  | [], _, _ :: _ => none
  | item :: pattern, fields, cs =>
    match item.read? fields cs with
    | some (fields, rest) => readPattern? pattern fields rest
    | none => none

/-- The instant that the fields name, if there is one. -/
def Fields.toInstant? (fields : Fields) : Option Instant :=
  let (second, leap) := if fields.second = 60 then (59, 1000000000) else (fields.second, 0)
  Instant.ofDate? ⟨fields.year, fields.month, fields.day⟩
    (fields.hour * 3600 + fields.minute * 60 + second) (fields.nanos + leap)

/-- A date. -/
def datePattern : List PatternItem :=
  [.year, .literal '-', .month, .literal '-', .day]

/-- A time of day to the minute. -/
def minutePattern : List PatternItem :=
  [.hour, .literal ':', .minute]

/-- A time of day to the second or finer. -/
def secondPattern : List PatternItem :=
  minutePattern ++ [.literal ':', .second, .fraction]

/-- The forms in which formulas write an instant: a date, with or without a time of day behind blanks
    or a `T`. -/
def patterns : List (List PatternItem) :=
  [datePattern ++ .blanks :: secondPattern,
   datePattern ++ .literal 'T' :: secondPattern,
   datePattern ++ .blanks :: minutePattern,
   datePattern ++ .literal 'T' :: minutePattern,
   datePattern]

/-- The strict form in which stored values write an instant, to the second or finer. -/
def storedPattern : List PatternItem :=
  [.year, .blanks, .literal '-', .month, .blanks, .literal '-', .day, .blanks, .literal 'T',
   .hour, .blanks, .literal ':', .minute, .blanks, .literal ':', .second, .fraction, .blanks]

end Time

/-- Read an instant in one of the forms of the language; blanks around it do not count. -/
def Instant.ofText? (text : String) : Option Instant :=
  let cs := Text.trimBlanks text.toList
  Time.patterns.findSome? (fun pattern => (Time.readPattern? pattern {} cs).bind Time.Fields.toInstant?)

/-- Read an instant in the form of stored values. -/
def Instant.ofStoredText? (text : String) : Option Instant :=
  (Time.readPattern? Time.storedPattern {} text.toList).bind Time.Fields.toInstant?

end SeriesLang
