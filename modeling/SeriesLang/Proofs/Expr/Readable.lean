import SeriesLang.Proofs.Expr.Reader

/-! # Readable expressions

What the reader can produce: names that are single words, integers that fit, finite floats, keywords in
order, and no more nesting than is read. Every tree that is read from a text is of this kind.
-/

namespace SeriesLang

def Literal.Readable : Literal → Prop
  | .int n => Word.Fits n
  | .float v => v.isFinite = true
  | .str _ => True
  | .bool _ => True

namespace Expr

/-- A name that is read as a symbol. -/
def IsName (name : String) : Prop :=
  Token.IsWord name.toList ∧ ofWord 0 name = .ok (.symbol name)

/-- Trees that are read from a text, with so much room for nested applications. -/
inductive Readable : Nat → Expr → Prop
  | literal {room l} (h : Literal.Readable l) : Readable room (.literal l)
  | symbol {room name} (h : IsName name) : Readable room (.symbol name)
  | call {room op args kwargs} (name : IsName op) (positional : ∀ e ∈ args, Readable room e)
      (keys : ∀ p ∈ kwargs, Token.IsWord p.1.toList) (values : ∀ p ∈ kwargs, Readable room p.2)
      (sorted : Sorted.Ascending kwargs) : Readable (room + 1) (.call ⟨op, args, kwargs⟩)

theorem IsName.symbol {name : String} (h : IsName name) : IsSymbol name := by
  rcases of_ofWord h.2 with ⟨l, -, literal⟩ | ⟨symbol, -⟩
  · cases literal
  · exact symbol

theorem readable_of_denotes {token : Token} {l : Literal} (h : token.Denotes l) :
    Literal.Readable l := by
  cases h with
  | str | true | false => trivial
  | int written integer fits => exact fits
  | float written broken finite => exact finite

/-- The tree of a derivation is readable, if its words could be cut out of a text. -/
theorem readable_tree {room : Nat} {d : Derivation} (h : d.Valid room)
    (clean : ∀ t ∈ d.tokens, t.Clean) : Readable room d.tree := by
  induction h with
  | literal h => exact .literal (readable_of_denotes h)
  | symbol h => exact .symbol ⟨clean _ List.mem_cons_self, ofWord_symbol h 0⟩
  | @list room op args kwargs name positional values distinct ihArgs ihKwargs =>
      simp only [Derivation.tokens, List.forall_mem_cons, List.forall_mem_append] at clean
      obtain ⟨-, cleanOp, cleanArgs, cleanKwargs, -⟩ := clean
      have readArgs : ∀ e ∈ Derivation.treesOfArgs args, Readable room e := by
        clear positional
        induction args with
        | nil => simp [Derivation.treesOfArgs]
        | cons d args ih =>
            simp only [Derivation.tokensOfArgs, List.forall_mem_append] at cleanArgs
            simp only [List.forall_mem_cons] at ihArgs
            exact List.forall_mem_cons.2 ⟨ihArgs.1 cleanArgs.1, ih ihArgs.2 cleanArgs.2⟩
      have readKwargs : ∀ p ∈ Derivation.treesOfKwargs kwargs,
          Token.IsWord p.1.toList ∧ Readable room p.2 := by
        clear values distinct
        induction kwargs with
        | nil => simp [Derivation.treesOfKwargs]
        | cons p kwargs ih =>
            simp only [Derivation.tokensOfKwargs, List.forall_mem_cons, List.forall_mem_append]
              at cleanKwargs
            simp only [List.forall_mem_cons] at ihKwargs
            exact List.forall_mem_cons.2
              ⟨⟨cleanKwargs.1, ihKwargs.1 cleanKwargs.2.1⟩, ih ihKwargs.2 cleanKwargs.2.2⟩
      have kept : ∀ p ∈ Sorted.putAll (Derivation.treesOfKwargs kwargs) [],
          Token.IsWord p.1.toList ∧ Readable room p.2 := fun p hp =>
        readKwargs p ((Sorted.mem_putAll hp).resolve_right List.not_mem_nil)
      exact .call ⟨cleanOp, ofWord_symbol name 0⟩ readArgs (fun p hp => (kept p hp).1)
        (fun p hp => (kept p hp).2) (Sorted.Ascending.putAll .nil _)

/-- Every tree that a text is read as is readable. -/
theorem readable_parse {text : String} {e : Expr} (h : parse text = .ok e) :
    Readable maxNesting e := by
  obtain ⟨d, valid, splits, rfl⟩ := parse_eq_ok_iff.1 h
  exact readable_tree valid splits.clean

end Expr

end SeriesLang
