import SeriesLang.Expr.Fold
import SeriesLang.Proofs.Query.Refinement

/-! # Constants folded

A sum, product or quotient of two numbers that is folded has the value of the literal in its place.
-/

namespace SeriesLang

/-- A literal that stands for a number. -/
inductive Literal.Numeric : Literal → Prop
  | int (n : Int) : Literal.Numeric (.int n)
  | float (v : Float) : Literal.Numeric (.float v)

/-- A value is what an operator makes of two numbers. -/
inductive Operator.Makes (v w : Value) : String → Value → Prop
  | sum : Operator.Makes v w "+" (Operator.arithmeticValue (· + ·) (· + ·) v w)
  | product : Operator.Makes v w "*" (Operator.arithmeticValue (· * ·) (· * ·) v w)
  | quotient {d} (number : w.number? = some d) (nonzero : (d == 0) = false) :
      Operator.Makes v w "/" (Operator.onValue (· / d) v)

namespace Expr

variable {op : String} {a b e : Expr} {P : Expr → Expr → Prop}

/-- A relation between expressions before and after their constants are folded: it may be shown for an
    application from its arguments, and it stays when two numbers are replaced by their value. -/
structure Folded (P : Expr → Expr → Prop) : Prop where
  literal : ∀ l, P (.literal l) (.literal l)
  symbol : ∀ name, P (.symbol name) (.symbol name)
  call : ∀ {call call'}, call.Similar P call' → P (.call call) (.call call')
  pair : ∀ {e op a b value}, P e (.call ⟨op, [a, b], []⟩) → foldPair? op a b = some value → P e value

mutual

theorem Folded.foldConstants (f : Folded P) : (e : Expr) → P e e.foldConstants
  | .literal l => f.literal l
  | .symbol name => f.symbol name
  | .call ⟨op, args, kwargs⟩ => by
    have inside : P (.call ⟨op, args, kwargs⟩) (.call ⟨op, Expr.foldArgs args, Expr.foldKwargs kwargs⟩) :=
      f.call ⟨rfl, f.foldArgs args, f.foldKwargs kwargs⟩
    rw [Expr.foldConstants]
    split
    · rename_i a b first second
      rw [first, second] at inside
      cases folded : foldPair? op a b with
      | none => exact inside
      | some value => exact f.pair inside folded
    · exact inside

theorem Folded.foldArgs (f : Folded P) : (es : List Expr) → List.Forall₂ P es (Expr.foldArgs es)
  | [] => .nil
  | e :: rest => .cons (f.foldConstants e) (f.foldArgs rest)

theorem Folded.foldKwargs (f : Folded P) : (es : List (String × Expr)) →
    List.Forall₂ (fun p q => p.1 = q.1 ∧ P p.2 q.2) es (Expr.foldKwargs es)
  | [] => .nil
  | (_, e) :: rest => .cons ⟨rfl, f.foldConstants e⟩ (f.foldKwargs rest)

end

theorem numeric_of_number? {x : Float} (h : e.number? = some x) :
    ∃ l, e = .literal l ∧ l.Numeric ∧ l.toValue.number? = some x := by
  cases e with
  | literal l =>
      cases l with
      | int n => exact ⟨_, rfl, .int n, h⟩
      | float v => exact ⟨_, rfl, .float v, h⟩
      | _ => cases h
  | _ => cases h

theorem foldInts?_cases {m n k : Int} (h : foldInts? op m n = some k) :
    (op = "+" ∧ Word.ofInt? (m + n) = some k) ∨ (op = "*" ∧ Word.ofInt? (m * n) = some k) := by
  unfold foldInts? at h
  split at h
  · exact .inl ⟨rfl, h⟩
  · exact .inr ⟨rfl, h⟩
  · cases h

theorem foldFloats?_cases {x y z : Float} (h : foldFloats? op x y = some z) :
    (op = "+" ∧ x + y = z) ∨ (op = "*" ∧ x * y = z) ∨ (op = "/" ∧ (y == 0) = false ∧ x / y = z) := by
  obtain ⟨h, -⟩ := Option.filter_eq_some_iff.1 h
  split at h
  · exact .inl ⟨rfl, Option.some.inj h⟩
  · exact .inr (.inl ⟨rfl, Option.some.inj h⟩)
  · split at h
    · cases h
    · rename_i nonzero
      exact .inr (.inr ⟨rfl, Bool.eq_false_iff.2 nonzero, Option.some.inj h⟩)
  · cases h

/-- What two numbers are folded to is made of them, if it is a sum or product of floats where their integers
    have none. -/
theorem foldFloats?_makes {x y : Literal} {p q z : Float} (hx : x.Numeric)
    (first : x.toValue.number? = some p) (second : y.toValue.number? = some q)
    (sum : op = "+" → Operator.arithmeticValue (· + ·) (· + ·) x.toValue y.toValue = .float (p + q))
    (product : op = "*" → Operator.arithmeticValue (· * ·) (· * ·) x.toValue y.toValue = .float (p * q))
    (h : foldFloats? op p q = some z) : Operator.Makes x.toValue y.toValue op (.float z) := by
  rcases foldFloats?_cases h with ⟨rfl, rfl⟩ | ⟨rfl, rfl⟩ | ⟨rfl, nonzero, rfl⟩
  · exact sum rfl ▸ .sum
  · exact product rfl ▸ .product
  · have quotient : Operator.onValue (· / q) x.toValue = .float (p / q) := by
      cases hx <;> cases first <;> rfl
    exact quotient ▸ .quotient second nonzero

/-- What a sum, product or quotient of two literals is folded to is its value. -/
theorem foldPair?_makes (h : foldPair? op a b = some e) : ∃ x y l, a = .literal x ∧ b = .literal y ∧
    e = .literal l ∧ x.Numeric ∧ y.Numeric ∧ Operator.Makes x.toValue y.toValue op l.toValue := by
  unfold foldPair? at h
  dsimp only at h
  split at h
  · rename_i k exact
    cases h
    split at exact
    · rename_i m n
      refine ⟨_, _, _, rfl, rfl, rfl, .int m, .int n, ?_⟩
      rcases foldInts?_cases exact with ⟨rfl, fits⟩ | ⟨rfl, fits⟩
      · have value : Operator.arithmeticValue (· + ·) (· + ·) (Literal.int m).toValue
            (Literal.int n).toValue = (Literal.int k).toValue := by
          simp only [Literal.toValue, Operator.arithmeticValue, fits]
        exact value ▸ .sum
      · have value : Operator.arithmeticValue (· * ·) (· * ·) (Literal.int m).toValue
            (Literal.int n).toValue = (Literal.int k).toValue := by
          simp only [Literal.toValue, Operator.arithmeticValue, fits]
        exact value ▸ .product
    · cases exact
  · rename_i inexact
    split at h
    · rename_i p q hp hq
      obtain ⟨z, floats, rfl⟩ := Option.map_eq_some_iff.1 h
      obtain ⟨x, rfl, hx, first⟩ := numeric_of_number? hp
      obtain ⟨y, rfl, hy, second⟩ := numeric_of_number? hq
      refine ⟨x, y, .float z, rfl, rfl, rfl, hx, hy, foldFloats?_makes hx first second ?_ ?_ floats⟩
      all_goals
        rintro rfl
        cases hx with
        | int m =>
            cases hy with
            | int n =>
                cases first
                cases second
                simp only [foldInts?] at inexact
                simp only [Literal.toValue, Operator.arithmeticValue, inexact]
            | float w =>
                cases first
                cases second
                rfl
        | float v =>
            cases first
            cases hy <;> cases second <;> rfl
    · cases h

end Expr

namespace Env

variable {env : Env} {catalog : Catalog} {n : Nat} {context : Context} {x y : Literal}

/-- A parameter that is required takes a number as it is. -/
theorem checkValue_number {op : String} {path : Path} {p : Param} (required : p.default = none)
    (type : p.type = .number ∨ p.type = .numberOrSeries) (hx : x.Numeric) :
    Signature.checkValue op path p x.toValue = .ok x.toValue := by
  unfold Signature.checkValue
  rw [required, Option.isSome_none, Bool.and_false, if_neg Bool.false_ne_true]
  rcases type with type | type <;> rw [type] <;> cases hx <;> rfl

/-- Two numbers are bound to two parameters as they are. -/
theorem Gathers.numbers {o : Operator} {op : String} {args : Arguments} {p q : Param}
    (h : env.Gathers catalog n context o ⟨op, [.literal x, .literal y], []⟩ args)
    (params : o.signature.positional = [p, q]) (tail : o.signature.rest = none)
    (required : p.default = none ∧ q.default = none)
    (types : (p.type = .number ∨ p.type = .numberOrSeries) ∧
      (q.type = .number ∨ q.type = .numberOrSeries))
    (hx : x.Numeric) (hy : y.Numeric) : args.positional = [x.toValue, y.toValue] := by
  obtain ⟨path, positional, keywords, hpositional, -, bound⟩ := h.bound
  obtain ⟨-, taken, -⟩ := Signature.bind_eq_ok_iff.1 bound
  obtain ⟨v, _, first, others, rfl⟩ := List.forall₂_cons_left_iff.1 hpositional
  obtain ⟨w, _, second, others, rfl⟩ := List.forall₂_cons_left_iff.1 others
  cases others
  rw [params, tail, first.literal, second.literal] at taken
  obtain ⟨v, checked, taken⟩ := ok_of_bind taken
  obtain ⟨ws, rest, taken⟩ := ok_of_bind taken
  obtain ⟨w, checked', rest⟩ := ok_of_bind rest
  cases rest
  rw [checkValue_number required.1 types.1 hx] at checked
  rw [checkValue_number required.2 types.2 hy] at checked'
  cases checked
  cases checked'
  exact (Except.ok.inj taken).symm

/-- The value of a sum, product or quotient of two numbers. -/
theorem Yields.makes (builtin : env.registry = .builtin) (hx : x.Numeric) (hy : y.Numeric) {op : String}
    {v r : Value} (made : Operator.Makes x.toValue y.toValue op r)
    (h : env.Yields catalog n context (.call ⟨op, [.literal x, .literal y], []⟩) v) : v = r := by
  cases n with
  | zero => exact absurd h not_yields_zero
  | succ n =>
      obtain ⟨path, o, found, h⟩ := h.call
      rw [builtin] at found
      cases made with
      | sum =>
          have known := Registry.builtin_get?_of_mem (o := Operator.plus) (by simp [Operator.builtins])
          cases found.symm.trans known
          obtain ⟨args, gathers, h⟩ := h
          have given := gathers.numbers rfl rfl ⟨rfl, rfl⟩ ⟨.inl rfl, .inr rfl⟩ hx hy
          simp only [run_answer_ofExcept, Arguments.positionalAt, given] at h
          exact (Except.ok.inj h).symm
      | product =>
          have known := Registry.builtin_get?_of_mem (o := Operator.times) (by simp [Operator.builtins])
          cases found.symm.trans known
          obtain ⟨args, gathers, h⟩ := h
          have given := gathers.numbers rfl rfl ⟨rfl, rfl⟩ ⟨.inl rfl, .inr rfl⟩ hx hy
          simp only [run_answer_ofExcept, Arguments.positionalAt, given] at h
          exact (Except.ok.inj h).symm
      | @quotient d number nonzero =>
          have known := Registry.builtin_get?_of_mem (o := Operator.divide) (by simp [Operator.builtins])
          cases found.symm.trans known
          obtain ⟨args, gathers, h⟩ := h
          have given := gathers.numbers rfl rfl ⟨rfl, rfl⟩ ⟨.inr rfl, .inl rfl⟩ hx hy
          rw [run_answer_ofExcept] at h
          obtain ⟨divisor, second, h⟩ := ok_of_bind h
          obtain ⟨-, h⟩ := ok_of_else h
          simp only [Arguments.numberAt, Arguments.positionalAt, given, List.getD_cons_succ,
            List.getD_cons_zero, number] at second h
          cases second
          exact (Except.ok.inj h).symm

theorem refines_foldPair? (builtin : env.registry = .builtin) {op : String} {a b e : Expr}
    (folded : Expr.foldPair? op a b = some e) :
    env.Refines catalog n (.call ⟨op, [a, b], []⟩) e := by
  obtain ⟨x, y, l, rfl, rfl, rfl, hx, hy, made⟩ := Expr.foldPair?_makes folded
  intro context v yields levels _ path slot
  rw [yields.makes builtin hx hy made]
  cases levels <;> rfl

/-- To fold constants keeps every value. -/
theorem refines_foldConstants (builtin : env.registry = .builtin) (e : Expr) (n : Nat) :
    env.Refines catalog n e e.foldConstants := by
  have folded : Expr.Folded fun e e' => ∀ n, env.Refines catalog n e e' :=
    { literal := fun l _ => refines_literal l
      symbol := fun name _ => refines_symbol name
      call := fun similar n => .of_similar builtin similar n
      pair := fun inside folded n => (inside n).trans (refines_foldPair? builtin folded) }
  exact folded.foldConstants e n

end Env

end SeriesLang
