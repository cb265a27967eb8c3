import SeriesLang.Error
import SeriesLang.Expr.Basic

/-! # Queries

A computation that looks up formulas by name, as a tree of look-ups. A catalog answers them; the same
computation can be run against a table, behind a cache, or with some formulas replaced.
-/

namespace SeriesLang

/-- Where formulas are found by name. A stored formula may fail to be read. -/
abbrev Catalog := String → Except Error (Option Expr)

/-- A computation that looks up formulas. -/
inductive Query (α : Type) where
  | done (value : α)
  | fail (error : Error)
  /-- Ask for the formula of a name, if there is one. -/
  | lookup (name : String) (next : Option Expr → Query α)

namespace Query

variable {α β : Type}

/-- Go on with the result of a computation. -/
def bind : Query α → (α → Query β) → Query β
  | .done a, f => f a
  | .fail e, _ => .fail e
  | .lookup name next, f => .lookup name (fun tree => (next tree).bind f)

instance : Monad Query where
  pure := .done
  bind := .bind

/-- A computation that looks nothing up. -/
def ofExcept : Except Error α → Query α
  | .ok a => .done a
  | .error e => .fail e

/-- The formula of a name, if there is one. -/
def formula (name : String) : Query (Option Expr) :=
  .lookup name .done

/-- Run against a catalog. -/
def run (catalog : Catalog) : Query α → Except Error α
  | .done a => .ok a
  | .fail e => .error e
  | .lookup name next =>
    match catalog name with
    | .ok tree => (next tree).run catalog
    | .error e => .error e

/-- Answer some look-ups with given formulas; the others stay. -/
def overlay (formulas : List (String × Expr)) : Query α → Query α
  | .done a => .done a
  | .fail e => .fail e
  | .lookup name next =>
    match Sorted.get? name formulas with
    | some tree => (next (some tree)).overlay formulas
    | none => .lookup name (fun tree => (next tree).overlay formulas)

/-- Apply a computation to each element in turn. -/
def forEach (f : α → Query β) : List α → Query (List β)
  | [] => .done []
  | a :: rest => (f a).bind (fun b => (forEach f rest).bind (fun bs => .done (b :: bs)))

/-- Pass a state through a computation for each element in turn. -/
def foldOver (f : β → α → Query β) : β → List α → Query β
  | b, [] => .done b
  | b, a :: rest => (f b a).bind (fun b => foldOver f b rest)

@[simp] theorem run_done (catalog : Catalog) (a : α) : (Query.done a).run catalog = .ok a := rfl

@[simp] theorem run_fail (catalog : Catalog) (e : Error) :
    (Query.fail e : Query α).run catalog = .error e := rfl

/-- A sequence runs one part after the other. -/
theorem run_bind (catalog : Catalog) (q : Query α) (f : α → Query β) :
    (q.bind f).run catalog = (q.run catalog).bind (fun a => (f a).run catalog) := by
  induction q with
  | done a => rfl
  | fail e => rfl
  | lookup name next ih =>
    simp only [bind, run]
    cases catalog name with
    | ok tree => exact ih tree
    | error e => rfl

end Query

/-- The catalog without formulas. -/
def Catalog.empty : Catalog :=
  fun _ => .ok none

end SeriesLang
