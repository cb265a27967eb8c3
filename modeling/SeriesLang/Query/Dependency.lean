import SeriesLang.Expr.Printer
import SeriesLang.Limits
import SeriesLang.Operator.Registry
import SeriesLang.Query.Basic
import SeriesLang.Store.Basic

/-! # Dependencies

The names that an expression reads, found without evaluating anything: directly, or through the
formulas that it names. A chain of formulas that leads back to itself is an error.
-/

namespace SeriesLang

/-- What a name stands for. -/
inductive Dependency where
  | primary (info : SeriesMeta)
  | formula
  | unknown
deriving DecidableEq, Repr

/-- Names and what they stand for, sorted by name. -/
abbrev Dependencies := List (String × Dependency)

namespace Dependency

/-- What a name stands for that is no formula. -/
def stored (store : Store) (name : String) : Dependency :=
  match store.info? name with
  | some info => .primary info
  | none => .unknown

/-- What a name stands for; a formula hides a stored series of its name. -/
def lookup (store : Store) (name : String) : Query Dependency := do
  match ← Query.formula name with
  | some _ => return .formula
  | none => return stored store name

/-- The metadata of a stored series. -/
def info? : Dependency → Option SeriesMeta
  | .primary info => some info
  | _ => none

/-- Is it a stored series? -/
def isPrimary (d : Dependency) : Bool :=
  d.info?.isSome

/-- The word for what a name stands for. -/
def kind : Dependency → String
  | .primary _ => "primary"
  | .formula => "formula"
  | .unknown => "unknown"

end Dependency

namespace Registry

mutual

/-- The names that an expression reads itself. An operator that has a finder knows the names of its
    applications; below others the arguments are looked through. -/
def references (r : Registry) : Expr → List String
  | .literal _ => []
  | .symbol _ => []
  | .call ⟨op, args, kwargs⟩ =>
    match (r.get? op).bind Operator.finder with
    | some find => find ⟨op, args, kwargs⟩
    | none => referencesOfArgs r args ++ referencesOfKwargs r kwargs

/-- The names that positional arguments read. -/
def referencesOfArgs (r : Registry) : List Expr → List String
  | [] => []
  | e :: rest => references r e ++ referencesOfArgs r rest

/-- The names that keyword values read. -/
def referencesOfKwargs (r : Registry) : List (String × Expr) → List String
  | [] => []
  | (_, e) :: rest => references r e ++ referencesOfKwargs r rest

end

end Registry

namespace Dependencies

/-- The names that an expression reads itself. -/
def direct (r : Registry) (store : Store) (e : Expr) : Query Dependencies :=
  Query.foldOver
    (fun found name => do return Sorted.put name (← Dependency.lookup store name) found)
    [] (r.references e)

/-- The names of a chain of formulas. -/
def chain (stack : List String) : Path :=
  ⟨String.intercalate "/" stack⟩

/-- Add what an expression reads that is reached through a chain of formulas, and what the formulas
    among them read. Chains may get longer by so many formulas. -/
def expand (r : Registry) (store : Store) :
    Nat → List String → Dependencies → Expr → Query Dependencies
  | 0, stack, _, _ => .fail (.recursionLimit Limits.resolveDepth (chain stack))
  | room + 1, stack, found, e => do
    Query.foldOver
      (fun found (name, dependency) => do
        if stack.contains name then .fail (.cyclicFormula name)
        else
          let seen := Sorted.contains name found
          let found := Sorted.put name dependency found
          if dependency = .formula && !seen then
            match ← Query.formula name with
            | some tree => expand r store room (stack ++ [name]) found tree
            | none => return found
          else return found)
      found (← direct r store e)

/-- All names that an expression reads, directly or through formulas. -/
def transitive (r : Registry) (store : Store) (e : Expr) : Query Dependencies :=
  expand r store (Limits.resolveDepth + 1) [] [] e

/-- All names that an expression reads which is to be the formula of a name; that name must not be
    among them. -/
def ofFormula (r : Registry) (store : Store) (name : String) (e : Expr) : Query Dependencies :=
  expand r store Limits.resolveDepth [name] [] e

/-- The names alone. -/
def names (found : Dependencies) : List String :=
  found.map Prod.fst

/-- The stored series among the names. -/
def primaries (found : Dependencies) : List String :=
  Dependencies.names (found.filter (fun p => p.2.isPrimary))

/-- Fail if there are names that stand for nothing. -/
def rejectUnknown (found : Dependencies) : Except Error Unit :=
  match found.filter (fun p => p.2 = .unknown) with
  | [] => .ok ()
  | unknown => .error (.unknownSeries (Dependencies.names unknown))

/-- The first thing that is found for a name. -/
def firstOf {α : Type} (find : String → Query (Option α)) : List String → Query (Option α)
  | [] => .done none
  | name :: rest => do
    match ← find name with
    | some a => return some a
    | none => firstOf find rest

/-- The metadata of the first stored series that an expression reads, directly or through formulas.
    Chains may get longer by so many formulas. -/
def firstInfoAt (store : Store) : Nat → Expr → Query (Option SeriesMeta)
  | 0, e => .fail (.recursionLimit Limits.resolveDepth ⟨e.canonical⟩)
  | room + 1, e =>
    firstOf (fun name => do
      match ← Query.formula name with
      | some tree => firstInfoAt store room tree
      | none => return store.info? name) e.seriesNames

/-- The metadata of the first stored series that an expression reads. -/
def firstInfo (store : Store) (e : Expr) : Query (Option SeriesMeta) :=
  firstInfoAt store (Limits.resolveDepth + 1) e

end Dependencies

end SeriesLang
