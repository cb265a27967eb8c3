import SeriesLang.Expr.Token
import SeriesLang.Path

/-! # Errors

Everything that can go wrong with a formula: in its text, in its operators and arguments, in its
evaluation and in the tables that keep it.
-/

namespace SeriesLang

/-- A computation that has no result at all, not even an error of its own operator. -/
inductive Abort where
  /-- A grid step is longer than the longest span. -/
  | stepTooLong
  /-- A grid step is zero. -/
  | stepZero
  /-- Values are to be clamped between bounds of which one is NaN. -/
  | unorderedBounds
deriving DecidableEq, Repr

/-- What can go wrong. Errors of the evaluation name the operator and its place. -/
inductive Error where
  | parse (error : ParseError)
  | unknownOperator (name : String) (path : Path)
  | unknownSeries (names : List String)
  | duplicateOperator (name : String)
  | arityMismatch (op : String) (path : Path) (message : String)
  | typeMismatch (op : String) (path : Path) (param expected found : String)
  | exclusiveKeywords (op : String) (path : Path) (first second : String)
  | formulaExists (name : String)
  | cyclicFormula (name : String)
  | evaluation (op : String) (path : Path) (message : String)
  | recursionLimit (limit : Nat) (path : Path)
  | deadlineExceeded (path : Path)
  | cancelled (path : Path)
  | concurrentWrite (expected found : Int)
  | renameConflict (formulas : List String)
  | unknownGroup (name : String)
  | groupExists (name : String)
  | database (message : String)
  /-- A backup that was never written. -/
  | missingBackup
  /-- A directory that cannot be made. -/
  | badDirectory
  /-- A place for a database where there can be no file. -/
  | notAFile
  /-- A file that cannot be written because its journal cannot be made. -/
  | noJournal
  /-- A table that does not exist. -/
  | missingTable
  /-- A JSON value of another shape than asked for. -/
  | malformedJson
  | aborted (cause : Abort)
deriving DecidableEq, Repr

namespace Error

/-- Names in quotes, between commas. -/
def quotedNames (names : List String) : String :=
  String.intercalate ", " (names.map (fun name => "`" ++ name ++ "`"))

/-- The text that reports an error. -/
def message : Error → String
  | .parse e =>
    let position := e.position
    let reason := e.fault.message
    s!"parse error at {position}: {reason}"
  | .unknownOperator name path =>
    let place := path.text
    s!"unknown operator `{name}` at `{place}`"
  | .unknownSeries names => "unknown series " ++ quotedNames names
  | .duplicateOperator name => s!"operator `{name}` is already registered"
  | .arityMismatch op path message =>
    let place := path.text
    s!"arity mismatch for `{op}` at `{place}`: {message}"
  | .typeMismatch op path param expected found =>
    let place := path.text
    s!"type mismatch for `{op}` at `{place}`: `{param}` expects {expected}, got {found}"
  | .exclusiveKeywords op path first second =>
    let place := path.text
    s!"`{op}` at `{place}`: keywords `{first}` and `{second}` are mutually exclusive"
  | .formulaExists name => s!"formula `{name}` already exists"
  | .cyclicFormula name => s!"formula `{name}` depends on itself"
  | .evaluation op path message =>
    let place := path.text
    s!"evaluation of `{op}` at `{place}` failed: {message}"
  | .recursionLimit limit path =>
    let place := path.text
    s!"recursion limit {limit} exceeded at `{place}`"
  | .deadlineExceeded path =>
    let place := path.text
    s!"deadline exceeded at `{place}`"
  | .cancelled path =>
    let place := path.text
    s!"evaluation cancelled at `{place}`"
  | .concurrentWrite expected found =>
    s!"formula database changed while resolving (epoch {expected}, now {found})"
  | .renameConflict formulas => "new name is already referenced by " ++ quotedNames formulas
  | .unknownGroup name => s!"unknown group formula `{name}`"
  | .groupExists name => s!"group `{name}` already exists"
  | .database message => s!"Database error: {message}"
  | .missingBackup => "backup does not exist"
  | .badDirectory => "directory cannot be made"
  | .notAFile => "database cannot be opened"
  | .noJournal => "journal cannot be made"
  | .missingTable => "no such table"
  | .malformedJson => "malformed JSON"
  | .aborted .stepTooLong => "grid step out of range"
  | .aborted .stepZero => "grid step is zero"
  | .aborted .unorderedBounds => "bounds are not ordered"

end Error

end SeriesLang
