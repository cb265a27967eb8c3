import SeriesLang.Expr.Printer
import SeriesLang.Proofs.Decimal.RoundTrip
import SeriesLang.Proofs.Expr.Readable
import SeriesLang.Proofs.Sorted

/-! # Reading what was written

The canonical text of a readable tree is read as that tree again: it is cut into the tokens of a
derivation of the tree.
-/

namespace SeriesLang

namespace Numeral

theorem Spells.not_delimiter {c : Char} (h : Spells c) : Token.isDelimiter c = false := by
  rcases h with digit | sign
  · simp only [Char.isDigit, Bool.and_eq_true, decide_eq_true_eq, UInt32.le_iff_toNat_le] at digit
    have least : 48 ≤ c.toNat := digit.1
    have greatest : c.toNat ≤ 57 := digit.2
    have other : ∀ d : Char, d.toNat < 48 ∨ 57 < d.toNat → (c == d) = false := by
      intro d hd
      refine beq_eq_false_iff_ne.2 (fun h => ?_)
      rw [h] at least greatest
      omega
    simp only [Token.isDelimiter, Text.isBlank, other '(' (by decide), other ')' (by decide),
      other '"' (by decide), other ';' (by decide), Bool.or_false, Bool.or_eq_false_iff,
      Bool.and_eq_false_iff, decide_eq_false_iff_not, beq_eq_false_iff_ne]
    omega
  · have plain : ['+', '-', '.', 'e', 'E'].all (fun c => !Token.isDelimiter c) = true := by decide
    simpa using List.all_eq_true.1 plain c sign

theorem isWord_of_ofChars? {cs : List Char} {n : Numeral} (h : ofChars? cs = some n) :
    Token.IsWord cs := by
  refine ⟨fun hnil => ?_, fun c hc => (spells_of_ofChars? h c hc).not_delimiter⟩
  rw [hnil] at h
  cases h

end Numeral

namespace Expr

theorem isWord_of_all {cs : List Char} (nonempty : cs ≠ [])
    (plain : cs.all (fun c => !Token.isDelimiter c) = true) : Token.IsWord cs := by
  refine ⟨nonempty, fun c hc => ?_⟩
  simpa using List.all_eq_true.1 plain c hc

/-- What is written for a string stands for it. -/
theorem quoted_escape (s : List Char) : Token.Quoted (s.flatMap Literal.escape) s := by
  induction s with
  | nil => exact .nil
  | cons c s ih =>
      rw [List.flatMap_cons]
      unfold Literal.escape
      split
      · exact .escape .quote ih
      · exact .escape .backslash ih
      · exact .escape .newline ih
      · exact .escape .tab ih
      · rename_i quote backslash _ _
        exact .plain quote backslash ih

/-- The word of a literal, unless it is a string. -/
def literalToken : Literal → Token
  | .str s => .str s
  | l => .word (String.ofList l.chars)

/-- A literal that can be read is written as a token that stands for it. -/
theorem splits_literal {l : Literal} (h : Literal.Readable l) : (literalToken l).Denotes l ∧
    ∀ cs ts, Token.Boundary cs → Token.Splits cs ts →
      Token.Splits (l.chars ++ cs) (literalToken l :: ts) := by
  have numeral : ∀ {chars n}, Numeral.ofChars? chars = some n → ∀ cs ts, Token.Boundary cs →
      Token.Splits cs ts → Token.Splits (chars ++ cs) (.word (String.ofList chars) :: ts) := by
    intro chars n read cs ts ends splits
    refine .word (Numeral.isWord_of_ofChars? read) (fun marked => ?_) ends splits
    obtain ⟨rest, rfl⟩ := marked
    cases read
  cases l with
  | int n =>
      obtain ⟨n', read, integer, rfl⟩ := Numeral.ofChars?_int n
      refine ⟨.int ?_ integer h, numeral read⟩
      rwa [String.toList_ofList, ← Numeral.ofChars?_eq_some_iff]
  | float v =>
      have finite : v.isFinite = true := h
      have point : Decimal.Layout.literal.keepsPoint = true := rfl
      obtain ⟨n, read, broken, rfl⟩ := Decimal.ofChars?_chars point finite
      refine ⟨.float ?_ broken finite, numeral read⟩
      rwa [String.toList_ofList, ← Numeral.ofChars?_eq_some_iff]
  | str s =>
      refine ⟨.str, fun cs ts ends splits => ?_⟩
      have whole := Token.Splits.str (quoted_escape s.toList) splits
      rw [String.ofList_toList] at whole
      simpa [Literal.chars, literalToken] using whole
  | bool b =>
      cases b with
      | true => exact ⟨.true, fun cs ts => .word (isWord_of_all (by decide) (by decide)) (by decide)⟩
      | false =>
          exact ⟨.false, fun cs ts => .word (isWord_of_all (by decide) (by decide)) (by decide)⟩

mutual

/-- The derivation of a canonical text. -/
def derivation : Expr → Derivation
  | .literal l => .literal (literalToken l) l
  | .symbol name => .symbol name
  | .call ⟨op, args, kwargs⟩ => .list op (derivationsOfArgs args) (derivationsOfKwargs kwargs)

def derivationsOfArgs : List Expr → List Derivation
  | [] => []
  | e :: rest => derivation e :: derivationsOfArgs rest

def derivationsOfKwargs : List (String × Expr) → List (String × Derivation)
  | [] => []
  | (name, e) :: rest => (name, derivation e) :: derivationsOfKwargs rest

end

theorem derivationsOfArgs_eq_map (args : List Expr) :
    derivationsOfArgs args = args.map derivation := by
  induction args with
  | nil => rfl
  | cons e args ih => rw [derivationsOfArgs, ih, List.map_cons]

theorem derivationsOfKwargs_eq_map (kwargs : List (String × Expr)) :
    derivationsOfKwargs kwargs = kwargs.map (fun p => (p.1, derivation p.2)) := by
  induction kwargs with
  | nil => rfl
  | cons p kwargs ih => rw [derivationsOfKwargs, ih, List.map_cons]

theorem valid_derivation {room : Nat} {e : Expr} (h : Readable room e) :
    e.derivation.Valid room ∧ e.derivation.tree = e := by
  induction h with
  | literal h => exact ⟨.literal (splits_literal h).1, rfl⟩
  | symbol h => exact ⟨.symbol h.symbol, rfl⟩
  | @call room op args kwargs name positional keys values sorted ihArgs ihKwargs =>
      have trees : Derivation.treesOfArgs (derivationsOfArgs args) = args := by
        rw [derivationsOfArgs_eq_map, Derivation.treesOfArgs_eq_map, List.map_map]
        exact (List.map_congr_left fun e he => (ihArgs e he).2).trans (List.map_id args)
      have pairs : Derivation.treesOfKwargs (derivationsOfKwargs kwargs) = kwargs := by
        rw [derivationsOfKwargs_eq_map, Derivation.treesOfKwargs_eq_map, List.map_map]
        refine (List.map_congr_left fun p hp => ?_).trans (List.map_id kwargs)
        exact Prod.ext rfl (ihKwargs p hp).2
      have names : (derivationsOfKwargs kwargs).map Prod.fst = kwargs.map Prod.fst := by
        rw [derivationsOfKwargs_eq_map, List.map_map]
        rfl
      refine ⟨.list name.symbol ?_ ?_ ?_, ?_⟩
      · rw [derivationsOfArgs_eq_map]
        exact List.forall_mem_map.2 fun e he => (ihArgs e he).1
      · rw [derivationsOfKwargs_eq_map]
        exact List.forall_mem_map.2 fun p hp => (ihKwargs p hp).1
      · rw [names]
        exact Sorted.Ascending.nodup sorted
      · have kept : Sorted.Ascending ([] ++ kwargs) := sorted
        rw [derivation, Derivation.tree, trees, pairs, Sorted.putAll_of_ascending kept,
          List.nil_append]

/-- The characters are cut into these tokens in front of a boundary. -/
def Scans (cs : List Char) (ts : List Token) : Prop :=
  ∀ rest us, Token.Boundary rest → Token.Splits rest us → Token.Splits (cs ++ rest) (ts ++ us)

theorem scans_args {args : List Expr} (h : ∀ e ∈ args, Scans e.chars e.derivation.tokens)
    {cs : List Char} {ts : List Token} (ends : Token.Boundary cs) (hcs : Token.Splits cs ts) :
    Token.Boundary (charsOfArgs args ++ cs) ∧ Token.Splits (charsOfArgs args ++ cs)
      (Derivation.tokensOfArgs (derivationsOfArgs args) ++ ts) := by
  induction args with
  | nil => exact ⟨ends, hcs⟩
  | cons e args ih =>
      obtain ⟨first, rest⟩ := List.forall_mem_cons.1 h
      obtain ⟨ends, splits⟩ := ih rest
      refine ⟨rfl, ?_⟩
      rw [charsOfArgs, derivationsOfArgs, Derivation.tokensOfArgs, List.cons_append,
        List.append_assoc, List.append_assoc]
      exact .blank rfl (first _ _ ends splits)

theorem scans_kwargs {kwargs : List (String × Expr)}
    (keys : ∀ p ∈ kwargs, Token.IsWord p.1.toList)
    (h : ∀ p ∈ kwargs, Scans p.2.chars p.2.derivation.tokens) {cs : List Char} {ts : List Token}
    (ends : Token.Boundary cs) (hcs : Token.Splits cs ts) :
    Token.Boundary (charsOfKwargs kwargs ++ cs) ∧ Token.Splits (charsOfKwargs kwargs ++ cs)
      (Derivation.tokensOfKwargs (derivationsOfKwargs kwargs) ++ ts) := by
  induction kwargs with
  | nil => exact ⟨ends, hcs⟩
  | cons p kwargs ih =>
      obtain ⟨name, e⟩ := p
      obtain ⟨key, keys⟩ := List.forall_mem_cons.1 keys
      obtain ⟨first, rest⟩ := List.forall_mem_cons.1 h
      obtain ⟨ends, splits⟩ := ih keys rest
      have space : Text.isBlank ' ' = true := rfl
      have behind : Token.Boundary (' ' :: (e.chars ++ (charsOfKwargs kwargs ++ cs))) := rfl
      have marked := Token.Splits.keyword key behind (.blank space (first _ _ ends splits))
      rw [String.ofList_toList] at marked
      refine ⟨rfl, ?_⟩
      simpa only [charsOfKwargs, derivationsOfKwargs, Derivation.tokensOfKwargs, List.cons_append,
        List.append_assoc] using Token.Splits.blank space marked

theorem IsName.scans {name : String} (h : IsName name) : Scans name.toList [.word name] := by
  intro rest us ends splits
  have whole := Token.Splits.word h.1 (fun marked => ?_) ends splits
  · rwa [String.ofList_toList] at whole
  · obtain ⟨tail, heq⟩ := marked
    exact h.symbol.1 (by rw [← heq]; rfl)

/-- The canonical text of a readable tree is cut into the tokens of its derivation. -/
theorem scans_chars {room : Nat} {e : Expr} (h : Readable room e) :
    Scans e.chars e.derivation.tokens := by
  induction h with
  | literal h => exact (splits_literal h).2
  | symbol h => exact h.scans
  | @call room op args kwargs name positional keys values sorted ihArgs ihKwargs =>
      intro rest us ends splits
      have closes : Token.Boundary (')' :: rest) := rfl
      obtain ⟨ends, splits⟩ := scans_kwargs keys ihKwargs closes splits.closeParen
      obtain ⟨ends, splits⟩ := scans_args ihArgs ends splits
      have whole := (name.scans _ _ ends splits).openParen
      simpa [chars, derivation, Derivation.tokens] using whole

/-- The canonical text of a readable tree is read as that tree. -/
theorem parse_canonical_of_readable {e : Expr} (h : Readable maxNesting e) :
    parse e.canonical = .ok e := by
  obtain ⟨valid, same⟩ := valid_derivation h
  have splits := scans_chars h [] [] trivial .nil
  rw [List.append_nil, List.append_nil] at splits
  refine parse_eq_ok_iff.2 ⟨e.derivation, valid, ?_, same⟩
  rwa [canonical, String.toList_ofList]

theorem readable_series (name : String) : Readable maxNesting (.series name) := by
  have isName : IsName "series" :=
    ⟨isWord_of_all (by decide) (by decide), toOption_eq_some_iff.1 (by decide)⟩
  refine Readable.call isName (fun e he => ?_) nofun nofun .nil
  rw [List.mem_singleton.1 he]
  exact .literal trivial

/-- A tree that was read from a text is read from its canonical text again, so trees that were read share
    a canonical text only when they are equal. -/
theorem parse_canonical {text : String} {e : Expr} (h : parse text = .ok e) :
    parse e.canonical = .ok e ∧
      ∀ (other : String) (e' : Expr), parse other = .ok e' → e'.canonical = e.canonical → e' = e := by
  have again := parse_canonical_of_readable (readable_parse h)
  refine ⟨again, fun other e' h' same => ?_⟩
  have again' := parse_canonical_of_readable (readable_parse h')
  rw [same, again] at again'
  exact (Except.ok.inj again').symm

theorem parse_canonical_weighted :
    ∃ e, parse "( series \"a\\\"b\" #:weight -2.50 #:fill 1 ) ; a spread" = .ok e ∧
      e.canonical = "(series \"a\\\"b\" #:fill 1 #:weight -2.5)" ∧ parse e.canonical = .ok e := by
  have read : parse "( series \"a\\\"b\" #:weight -2.50 #:fill 1 ) ; a spread" =
      .ok (.call ⟨"series", [.literal (.str "a\"b")],
        [("fill", .literal (.int 1)), ("weight", .literal (.float (-2.5)))]⟩) :=
    toOption_eq_some_iff.1 (by decide +kernel)
  exact ⟨_, read, by decide +kernel, (parse_canonical read).1⟩

end Expr

end SeriesLang
