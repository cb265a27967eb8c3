import SeriesLang.Proofs.Expr.Expansion

/-! # How deep texts nest

So many parentheses are open at once in a text as applications stand within one another in the tree that is
read from it. So of all the expressions whose parts can be read, those are read from their canonical text
that nest no deeper than texts are read, and the others are refused.
-/

namespace SeriesLang

namespace Token

theorem Splits.unique {cs : List Char} {ts us : List Token} (h : Splits cs ts) (k : Splits cs us) :
    ts = us := by
  obtain ⟨located, scanned, rfl⟩ := scan_iff_splits.2 h
  obtain ⟨located', again, rfl⟩ := scan_iff_splits.2 k
  cases scanned.symm.trans again
  rfl

/-- How many parentheses are open at once in these tokens, at most, behind so many that are open. -/
def peak (opened : Nat) : List Token → Nat
  | [] => opened
  | .openParen :: rest => peak (opened + 1) rest
  | .closeParen :: rest => max opened (peak (opened - 1) rest)
  | _ :: rest => peak opened rest

theorem le_peak (opened : Nat) (ts : List Token) : opened ≤ peak opened ts := by
  induction ts generalizing opened with
  | nil => exact Nat.le_refl opened
  | cons t ts ih =>
      cases t with
      | openParen => exact Nat.le_of_succ_le (ih (opened + 1))
      | closeParen => exact Nat.le_max_left _ _
      | str | keyword | word => exact ih opened

end Token

namespace Expr

/-- An application stays below a limit if its arguments do so one level deeper. -/
theorem nesting_call_le_iff {op : String} {args : List Expr} {kwargs : List (String × Expr)} {k n : Nat} :
    k + nesting (.call ⟨op, args, kwargs⟩) ≤ n ↔ k + 1 ≤ n ∧ (∀ e ∈ args, k + 1 + e.nesting ≤ n) ∧
      ∀ p ∈ kwargs, k + 1 + p.2.nesting ≤ n := by
  have positional : nestingOfArgs args ≤ n - (k + 1) ↔ ∀ e ∈ args, e.nesting ≤ n - (k + 1) := by
    induction args with
    | nil => simp [nestingOfArgs]
    | cons e args ih => rw [nestingOfArgs, Nat.max_le, ih, List.forall_mem_cons]
  have keywords : nestingOfKwargs kwargs ≤ n - (k + 1) ↔ ∀ p ∈ kwargs, p.2.nesting ≤ n - (k + 1) := by
    induction kwargs with
    | nil => simp [nestingOfKwargs]
    | cons p kwargs ih => rw [nestingOfKwargs, Nat.max_le, ih, List.forall_mem_cons]
  rw [nesting]
  constructor
  · intro fits
    have args := positional.1 (by omega)
    have kwargs := keywords.1 (by omega)
    exact ⟨by omega, fun e he => by have := args e he; omega, fun p hp => by have := kwargs p hp; omega⟩
  · rintro ⟨room, args, kwargs⟩
    have args := positional.2 fun e he => by have := args e he; omega
    have kwargs := keywords.2 fun p hp => by have := kwargs p hp; omega
    omega

theorem Readable.nesting_le {room : Nat} {e : Expr} (h : Readable room e) : e.nesting ≤ room := by
  induction h with
  | literal => exact Nat.zero_le _
  | symbol => exact Nat.zero_le _
  | @call room op args kwargs _ _ _ _ _ ihArgs ihKwargs =>
      rw [← Nat.zero_add (nesting _), nesting_call_le_iff]
      exact ⟨by omega, fun e he => by have := ihArgs e he; omega,
        fun p hp => by have := ihKwargs p hp; omega⟩

end Expr

namespace Derivation

/-- The tokens of a derivation open as many parentheses as applications stand within one another in its
    tree. -/
def Opens (d : Derivation) : Prop :=
  ∀ k n rest, Token.peak k (d.tokens ++ rest) ≤ n ↔ k + d.tree.nesting ≤ n ∧ Token.peak k rest ≤ n

theorem opens_args {args : List Derivation} (h : ∀ d ∈ args, d.Opens) (k n : Nat) (rest : List Token) :
    Token.peak k (tokensOfArgs args ++ rest) ≤ n ↔
      (∀ e ∈ treesOfArgs args, k + e.nesting ≤ n) ∧ Token.peak k rest ≤ n := by
  induction args with
  | nil => simp [tokensOfArgs, treesOfArgs]
  | cons d args ih =>
      obtain ⟨first, others⟩ := List.forall_mem_cons.1 h
      rw [tokensOfArgs, treesOfArgs, List.append_assoc, first, ih others, List.forall_mem_cons, and_assoc]

theorem opens_kwargs {kwargs : List (String × Derivation)} (h : ∀ p ∈ kwargs, p.2.Opens) (k n : Nat)
    (rest : List Token) : Token.peak k (tokensOfKwargs kwargs ++ rest) ≤ n ↔
      (∀ p ∈ treesOfKwargs kwargs, k + p.2.nesting ≤ n) ∧ Token.peak k rest ≤ n := by
  induction kwargs with
  | nil => simp [tokensOfKwargs, treesOfKwargs]
  | cons p kwargs ih =>
      obtain ⟨name, d⟩ := p
      obtain ⟨first, others⟩ := List.forall_mem_cons.1 h
      rw [tokensOfKwargs, treesOfKwargs, List.forall_mem_cons, and_assoc]
      show Token.peak k ((tokens d ++ tokensOfKwargs kwargs) ++ rest) ≤ n ↔ _
      rw [List.append_assoc, first, ih others]

/-- A list keeps each of its keywords, in order of their names. -/
theorem mem_putAll_treesOfKwargs {kwargs : List (String × Derivation)}
    (distinct : (kwargs.map Prod.fst).Nodup) {p : String × Expr} :
    p ∈ Sorted.putAll (treesOfKwargs kwargs) [] ↔ p ∈ treesOfKwargs kwargs := by
  rw [← names_treesOfKwargs] at distinct
  refine ⟨fun hp => (Sorted.mem_putAll hp).resolve_right List.not_mem_nil, fun hp => ?_⟩
  refine Sorted.mem_of_get? ?_
  rw [Sorted.get?_putAll distinct, Sorted.get?_of_nodup distinct hp]
  rfl

theorem Valid.opens {room : Nat} {d : Derivation} (h : d.Valid room) : d.Opens := by
  induction h with
  | @literal room token value h =>
      intro k n rest
      have open_le := Token.le_peak k rest
      cases h with
      | str | true | false | int | float =>
        show Token.peak k rest ≤ n ↔ k ≤ n ∧ Token.peak k rest ≤ n
        omega
  | symbol =>
      intro k n rest
      have open_le := Token.le_peak k rest
      show Token.peak k rest ≤ n ↔ k ≤ n ∧ Token.peak k rest ≤ n
      omega
  | @list room op args kwargs _ _ _ distinct ihArgs ihKwargs =>
      intro k n rest
      -- The closing parenthesis leads back to the level that the list stands on.
      have closes : Token.peak (k + 1) (.closeParen :: rest) ≤ n ↔ k + 1 ≤ n ∧ Token.peak k rest ≤ n := by
        rw [Token.peak, Nat.max_le, Nat.add_sub_cancel]
      have keywords : (∀ p ∈ Sorted.putAll (treesOfKwargs kwargs) [], k + 1 + p.2.nesting ≤ n) ↔
          ∀ p ∈ treesOfKwargs kwargs, k + 1 + p.2.nesting ≤ n :=
        forall_congr' fun p => by rw [mem_putAll_treesOfKwargs distinct]
      have covered : (Derivation.list op args kwargs).tokens ++ rest = .openParen :: .word op ::
          (tokensOfArgs args ++ (tokensOfKwargs kwargs ++ .closeParen :: rest)) := by
        simp [tokens]
      rw [covered, tree, Expr.nesting_call_le_iff, keywords]
      show Token.peak (k + 1) (tokensOfArgs args ++ _) ≤ n ↔ _
      rw [opens_args ihArgs, opens_kwargs ihKwargs, closes]
      tauto

end Derivation

namespace Expr

/-- From a canonical text nothing is read that nests deeper than texts are read. -/
theorem nesting_le_of_parse_canonical {e e' : Expr} (h : Writable e) (read : parse e.canonical = .ok e') :
    e.nesting ≤ maxNesting := by
  obtain ⟨room, h⟩ := h
  obtain ⟨d, valid, splits, -⟩ := parse_eq_ok_iff.1 read
  obtain ⟨own, same⟩ := valid_derivation h
  have scanned := scans_chars h [] [] trivial .nil
  rw [List.append_nil, List.append_nil] at scanned
  rw [canonical, String.toList_ofList] at splits
  -- What was read need not have been the tree itself, but it has the same tokens.
  have tokens : d.tokens = e.derivation.tokens := splits.unique scanned
  have shallow : d.tree.nesting ≤ maxNesting := (readable_tree valid splits.clean).nesting_le
  have peak : Token.peak 0 (d.tokens ++ []) ≤ maxNesting :=
    (valid.opens 0 maxNesting []).2 ⟨by omega, Nat.zero_le _⟩
  rw [tokens, own.opens 0 maxNesting [], same, Nat.zero_add] at peak
  exact peak.1

/-- The canonical text of an expression whose parts can be read is refused if it nests deeper than texts are
    read. -/
theorem ofText_canonical_of_deeper {e : Expr} (h : Writable e) (deeper : maxNesting < e.nesting) :
    ∃ err, ofText e.canonical = .error (.parse err) := by
  cases read : parse e.canonical with
  | ok e' => exact absurd (nesting_le_of_parse_canonical h read) (Nat.not_le.2 deeper)
  | error err => exact ⟨err, by rw [ofText, read]⟩

/-! ## Expressions of any nesting -/

section Raised

variable {e e' : Expr} {catalog : Catalog}

/-- So many ones added to an expression, one after the other. -/
def raised : Nat → Expr → Expr
  | 0, e => e
  | n + 1, e => .call ⟨"+", [.literal (.int 1), raised n e], []⟩

theorem raised_succ (n : Nat) (e : Expr) : raised (n + 1) e = raised n (raised 1 e) := by
  induction n with
  | zero => rfl
  | succ n ih => exact congrArg (fun e => call ⟨"+", [.literal (.int 1), e], []⟩) ih

theorem nesting_raised (n : Nat) (e : Expr) : (raised n e).nesting = n + e.nesting := by
  induction n with
  | zero => rw [raised, Nat.zero_add]
  | succ n ih =>
      simp only [raised, nesting, nestingOfArgs, nestingOfKwargs, ih]
      omega

theorem Writable.raised (h : Writable e) (n : Nat) : (raised n e).Writable := by
  induction n with
  | zero => exact h
  | succ n ih =>
      have plus : IsName "+" :=
        ⟨isWord_of_all (by decide) (by decide), toOption_eq_some_iff.1 (by decide)⟩
      have one : Writable (.literal (.int 1)) := ⟨0, .literal (by decide : Word.Fits 1)⟩
      refine writable_call_iff.2 ⟨plus, ?_, nofun, .nil⟩
      exact List.forall_mem_cons.2 ⟨one, List.forall_mem_singleton.2 ih⟩

theorem calls_raised {n : Nat} {call : Call} (h : call ∈ (raised n e).calls) :
    call ∈ e.calls ∨ call.op = "+" ∧ call.args.length = 2 ∧ call.kwargs = [] := by
  induction n with
  | zero => exact .inl h
  | succ n ih =>
      simp only [raised, calls, callsOfArgs, callsOfKwargs, List.nil_append, List.append_nil,
        List.mem_cons] at h
      rcases h with rfl | h
      · exact .inr ⟨rfl, rfl, rfl⟩
      · exact ih h

theorem seriesNames_raised (n : Nat) (e : Expr) : (raised n e).seriesNames = e.seriesNames := by
  induction n with
  | zero => rfl
  | succ n ih =>
      rw [← ih]
      simp [raised, seriesNames, calls, callsOfArgs, callsOfKwargs, Application.seriesName?]

/-- Formulas are written out below the sums. -/
theorem inlineWith_raised {deeper : Expr → Query Expr}
    (h : (inlineWith deeper e).run catalog = .ok e') (n : Nat) :
    (inlineWith deeper (raised n e)).run catalog = .ok (raised n e') := by
  induction n with
  | zero => exact h
  | succ n ih =>
      have rest : (inlineArgs deeper [raised n e]).run catalog = .ok [raised n e'] := Query.run_bind_ok ih
      have args : (inlineArgs deeper [.literal (.int 1), raised n e]).run catalog =
          .ok [.literal (.int 1), raised n e'] := Query.run_bind_ok rest
      exact Query.run_bind_ok args

/-- The formula of a name is written in its place. -/
theorem inlineWith_series {deeper : Expr → Query Expr} {name : String} {tree : Expr}
    (stored : catalog name = .ok (some tree)) :
    (inlineWith deeper (.series name)).run catalog = (deeper tree).run catalog := by
  have named : (Query.formula name).run catalog = .ok (some tree) := (Query.run_formula ..).trans stored
  exact Query.run_bind_ok named

theorem inlineWith_series_none {deeper : Expr → Query Expr} {name : String}
    (absent : catalog name = .ok none) :
    (inlineWith deeper (.series name)).run catalog = .ok (.series name) := by
  have named : (Query.formula name).run catalog = .ok none := (Query.run_formula ..).trans absent
  exact Query.run_bind_ok named

/-- Sums are not folded above what is no number. -/
theorem foldConstants_raised {call : Call} (folded : (Expr.call call).foldConstants = .call call) (n : Nat) :
    (raised n (.call call)).foldConstants = raised n (.call call) := by
  induction n with
  | zero => exact folded
  | succ n ih =>
      obtain ⟨above, sum⟩ : ∃ above, raised n (.call call) = .call above := by
        cases n with
        | zero => exact ⟨call, rfl⟩
        | succ n => exact ⟨_, rfl⟩
      simp only [raised, foldConstants, foldArgs, foldKwargs, ih]
      rw [sum]
      rfl

/-- Formulas are written out below the sums, as far as formulas lead. -/
theorem inlineFormulas_raised {name base : String} {n m : Nat}
    (below : catalog name = .ok (some (.raised m (.series base)))) (series : catalog base = .ok none) :
    (raised n (.series name)).inlineFormulas.run catalog = .ok (.raised n (.raised m (.series base))) := by
  have written : (inlineAt Limits.resolveDepth (.raised m (.series base))).run catalog =
      .ok (.raised m (.series base)) :=
    inlineWith_raised (inlineWith_series_none series) m
  exact inlineWith_raised ((inlineWith_series below).trans written) n

end Raised

end Expr

end SeriesLang
