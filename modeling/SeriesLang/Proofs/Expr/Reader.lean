import SeriesLang.Proofs.Expr.Derivation
import SeriesLang.Proofs.Expr.Scan
import SeriesLang.Proofs.Success

/-! # The reader follows the grammar

The tokens of a derivation lead the reader from any place where an expression may stand to the tree handed
over. Conversely the tokens that were read without a fault are those of derivations which are complete,
or open with every part in place; what is open is what lies on the stack.
-/

namespace SeriesLang.Expr

open Derivation

/-- May an expression stand behind what was read? -/
def Accepts : List Frame → Prop
  | [] => True
  | .head _ :: _ => False
  | .body _ application none :: _ => application.kwargs = []
  | .body _ _ (some _) :: _ => True

theorem step_start {frames : List Frame} (h : Accepts frames) (position : Nat) {token : Token}
    (notClose : token ≠ .closeParen) (notKeyword : ∀ name, token ≠ .keyword name) :
    Reading.step (.pending frames) (position, token) = Reading.start frames position token := by
  match frames with
  | [] => rfl
  | .head _ :: _ => exact h.elim
  | .body opened application (some (marked, name)) :: rest =>
      cases token with
      | closeParen => exact absurd rfl notClose
      | keyword other => exact absurd rfl (notKeyword other)
      | _ => rfl
  | .body opened application none :: rest =>
      have empty : application.kwargs = [] := h
      cases token with
      | closeParen => exact absurd rfl notClose
      | keyword other => exact absurd rfl (notKeyword other)
      | _ => simp only [Reading.step, empty, List.isEmpty_nil, if_true]

theorem addKeyword?_eq_some_iff {name : String} {e : Expr} {kwargs more : List (String × Expr)} :
    Application.addKeyword? name e kwargs = some more ↔
      Sorted.contains name kwargs = false ∧ more = Sorted.put name e kwargs := by
  unfold Application.addKeyword?
  split
  · rename_i taken
    simp [taken]
  · rename_i free
    simp only [Option.some.injEq, Bool.not_eq_true _ ▸ free, true_and, eq_comm]

/-! ## Derivations are read -/

/-- Wherever an expression may stand, the tokens of the derivation lead to handing over its tree. -/
def Leads (room : Nat) (d : Derivation) : Prop :=
  ∀ frames, Accepts frames → frames.length + room ≤ maxNesting →
    ∀ located : List (Nat × Token), located.map Prod.snd = d.tokens →
      located.foldlM Reading.step (.pending frames) = Reading.supply d.tree frames

theorem leads_args {room opened : Nat} {op : String} {rest : List Frame} {args : List Derivation}
    {done : List Expr} (h : ∀ d ∈ args, Leads room d) (fits : rest.length + 1 + room ≤ maxNesting)
    {located : List (Nat × Token)} (hlocated : located.map Prod.snd = tokensOfArgs args) :
    located.foldlM Reading.step (.pending (.body opened ⟨op, done, []⟩ none :: rest)) =
      .ok (.pending (.body opened ⟨op, done ++ treesOfArgs args, []⟩ none :: rest)) := by
  induction args generalizing done located with
  | nil =>
      rw [List.map_eq_nil_iff.1 hlocated, treesOfArgs, List.append_nil]
      rfl
  | cons d args ih =>
      obtain ⟨first, others, rfl, hfirst, hothers⟩ := List.map_eq_append_iff.1 hlocated
      have one : first.foldlM Reading.step (.pending (.body opened ⟨op, done, []⟩ none :: rest)) =
          .ok (.pending (.body opened ⟨op, done ++ [d.tree], []⟩ none :: rest)) :=
        h d List.mem_cons_self (.body opened ⟨op, done, []⟩ none :: rest) rfl fits first hfirst
      rw [foldlM_append_ok one, ih (fun a ha => h a (List.mem_cons_of_mem _ ha)) hothers,
        List.append_assoc, List.singleton_append, treesOfArgs]

theorem leads_kwargs {room opened : Nat} {op : String} {rest : List Frame} {args : List Expr}
    {kwargs : List (String × Derivation)} {done : List (String × Expr)}
    (h : ∀ p ∈ kwargs, Leads room p.2) (distinct : (kwargs.map Prod.fst).Nodup)
    (fresh : ∀ name ∈ kwargs.map Prod.fst, Sorted.contains name done = false)
    (fits : rest.length + 1 + room ≤ maxNesting) {located : List (Nat × Token)}
    (hlocated : located.map Prod.snd = tokensOfKwargs kwargs) :
    located.foldlM Reading.step (.pending (.body opened ⟨op, args, done⟩ none :: rest)) =
      .ok (.pending (.body opened
        ⟨op, args, Sorted.putAll (treesOfKwargs kwargs) done⟩ none :: rest)) := by
  induction kwargs generalizing done located with
  | nil =>
      rw [List.map_eq_nil_iff.1 hlocated]
      rfl
  | cons p kwargs ih =>
      obtain ⟨name, d⟩ := p
      obtain ⟨⟨marked, token⟩, located, rfl, htoken, hlocated⟩ := List.map_eq_cons_iff.1 hlocated
      obtain ⟨first, others, rfl, hfirst, hothers⟩ := List.map_eq_append_iff.1 hlocated
      obtain ⟨apart, distinct⟩ := List.nodup_cons.1 distinct
      obtain ⟨free, fresh⟩ := List.forall_mem_cons.1 fresh
      cases htoken
      have marker : Reading.step (.pending (.body opened ⟨op, args, done⟩ none :: rest))
          (marked, .keyword name) =
          .ok (.pending (.body opened ⟨op, args, done⟩ (some (marked, name)) :: rest)) := rfl
      have one : first.foldlM Reading.step
          (.pending (.body opened ⟨op, args, done⟩ (some (marked, name)) :: rest)) =
          .ok (.pending (.body opened ⟨op, args, Sorted.put name d.tree done⟩ none :: rest)) := by
        rw [h _ List.mem_cons_self (.body opened ⟨op, args, done⟩ (some (marked, name)) :: rest)
          trivial fits first hfirst, Reading.supply, addKeyword?_eq_some_iff.2 ⟨free, rfl⟩]
      have still : ∀ other ∈ kwargs.map Prod.fst,
          Sorted.contains other (Sorted.put name d.tree done) = false := by
        intro other hother
        rw [Sorted.contains_put, fresh other hother, Bool.or_false, decide_eq_false_iff_not]
        rintro rfl
        exact apart hother
      rw [foldlM_cons_ok marker, foldlM_append_ok one,
        ih (fun q hq => h q (List.mem_cons_of_mem _ hq)) distinct still hothers]
      rfl

theorem start_literal {token : Token} {l : Literal} (h : token.Denotes l) (frames : List Frame)
    (position : Nat) : token ≠ .closeParen ∧ (∀ name, token ≠ .keyword name) ∧
      Reading.start frames position token = Reading.supply (.literal l) frames := by
  cases token with
  | openParen | closeParen | keyword => cases h
  | str s =>
      cases h
      exact ⟨by simp, by simp, rfl⟩
  | word w =>
      refine ⟨by simp, by simp, ?_⟩
      rw [Reading.start, ofWord_literal h position]
      rfl

/-- A step leads on, and the last one decides. -/
theorem foldlM_last {frames : List Frame} {located : Nat × Token} {r : Except ParseError Reading}
    (h : Reading.step (.pending frames) located = r) :
    [located].foldlM Reading.step (.pending frames) = r := by
  rw [List.foldlM_cons, h]
  cases r <;> rfl

/-- The tokens of a valid derivation are read as its tree. -/
theorem leads_tokens {room : Nat} {d : Derivation} (h : d.Valid room) : Leads room d := by
  induction h with
  | @literal room token l h =>
      intro frames accepts fits located hlocated
      obtain ⟨⟨position, token⟩, rfl, rfl⟩ := List.map_eq_singleton_iff.1 hlocated
      obtain ⟨notClose, notKeyword, start⟩ := start_literal h frames position
      exact foldlM_last ((step_start accepts position notClose notKeyword).trans start)
  | @symbol room name h =>
      intro frames accepts fits located hlocated
      obtain ⟨⟨position, token⟩, rfl, htoken⟩ := List.map_eq_singleton_iff.1 hlocated
      subst htoken
      refine foldlM_last ?_
      rw [step_start accepts position (by simp) (by simp), Reading.start, ofWord_symbol h position]
      rfl
  | @list room op args kwargs name positional values distinct ihArgs ihKwargs =>
      intro frames accepts fits located hlocated
      obtain ⟨⟨opened, paren⟩, located, rfl, hparen, hlocated⟩ := List.map_eq_cons_iff.1 hlocated
      obtain ⟨⟨position, token⟩, located, rfl, htoken, hlocated⟩ := List.map_eq_cons_iff.1 hlocated
      obtain ⟨first, located, rfl, hfirst, hlocated⟩ := List.map_eq_append_iff.1 hlocated
      obtain ⟨second, last, rfl, hsecond, hlast⟩ := List.map_eq_append_iff.1 hlocated
      obtain ⟨⟨closed, close⟩, rfl, hclose⟩ := List.map_eq_singleton_iff.1 hlast
      cases hparen
      cases htoken
      cases hclose
      have opens : Reading.step (.pending frames) (opened, .openParen) =
          .ok (.pending (.head opened :: frames)) := by
        rw [step_start accepts opened (by simp) (by simp), Reading.start, if_pos (by omega)]
      have head : Reading.step (.pending (.head opened :: frames)) (position, .word op) =
          .ok (.pending (.body opened ⟨op, [], []⟩ none :: frames)) := by
        simp only [Reading.step, ofWord_symbol name position]
        rfl
      have filled : first.foldlM Reading.step (.pending (.body opened ⟨op, [], []⟩ none :: frames)) =
          .ok (.pending (.body opened ⟨op, treesOfArgs args, []⟩ none :: frames)) :=
        leads_args ihArgs (by omega) hfirst
      have named : second.foldlM Reading.step
          (.pending (.body opened ⟨op, treesOfArgs args, []⟩ none :: frames)) = .ok (.pending
            (.body opened ⟨op, treesOfArgs args, Sorted.putAll (treesOfKwargs kwargs) []⟩ none ::
              frames)) :=
        leads_kwargs ihKwargs distinct (fun _ _ => rfl) (by omega) hsecond
      rw [foldlM_cons_ok opens, foldlM_cons_ok head, foldlM_append_ok filled, foldlM_append_ok named]
      exact foldlM_last rfl

/-! ## What is read is derived -/

/-- A keyword that waits for its value. -/
def markerTokens : Option (Nat × String) → List Token
  | none => []
  | some (_, name) => [.keyword name]

/-- The tokens read so far are those of the open applications, outermost first. -/
inductive Open : List Token → List Frame → Prop
  | nil : Open [] []
  | head {ts opened frames} (h : Open ts frames) (accepts : Accepts frames)
      (room : frames.length < maxNesting) : Open (ts ++ [.openParen]) (.head opened :: frames)
  | body {ts opened op args kwargs pending frames} (h : Open ts frames) (accepts : Accepts frames)
      (room : frames.length < maxNesting)
      (part : (Derivation.list op args kwargs).Valid (maxNesting - frames.length)) :
      Open (ts ++ .openParen :: .word op ::
          (tokensOfArgs args ++ (tokensOfKwargs kwargs ++ markerTokens pending)))
        (.body opened ⟨op, treesOfArgs args, Sorted.putAll (treesOfKwargs kwargs) []⟩ pending ::
          frames)

/-- The tokens that lead to this reading. -/
def Reading.Covers (ts : List Token) : Reading → Prop
  | .pending frames => Open ts frames
  | .complete e => ∃ d : Derivation, d.Valid maxNesting ∧ d.tokens = ts ∧ d.tree = e

/-- Below the open applications there is room for so much nesting. -/
theorem room_succ {n : Nat} (h : n < maxNesting) : maxNesting - n = maxNesting - (n + 1) + 1 := by
  omega

/-- A finished expression goes into the innermost application. -/
theorem covers_supply {ts : List Token} {frames : List Frame} {d : Derivation} {next : Reading}
    (h : Open ts frames) (accepts : Accepts frames) (hd : d.Valid (maxNesting - frames.length))
    (hnext : Reading.supply d.tree frames = .ok next) : next.Covers (ts ++ d.tokens) := by
  cases h with
  | nil =>
      cases hnext
      exact ⟨d, hd, rfl, rfl⟩
  | head => cases hnext
  | @body ts opened op args kwargs pending frames h below room part =>
      rw [List.length_cons] at hd
      rw [room_succ room] at part
      cases pending with
      | none =>
          obtain rfl := treesOfKwargs_eq_nil accepts
          cases hnext
          have whole := part.push hd
          rw [← room_succ room] at whole
          have grown : Open _ (.body opened _ none :: frames) := .body h below room whole
          simpa [Reading.Covers, tokensOfArgs_append, treesOfArgs_eq_map, tokensOfArgs,
            tokensOfKwargs, markerTokens] using grown
      | some marked =>
          obtain ⟨position, name⟩ := marked
          simp only [Reading.supply] at hnext
          split at hnext
          · rename_i more hmore
            cases hnext
            obtain ⟨free, rfl⟩ := addKeyword?_eq_some_iff.1 hmore
            have fresh : name ∉ kwargs.map Prod.fst := by
              intro taken
              rw [← names_treesOfKwargs] at taken
              rw [Sorted.contains_putAll.2 (.inl taken)] at free
              cases free
            have whole := part.pushKeyword hd fresh
            rw [← room_succ room] at whole
            have grown : Open _ (.body opened _ none :: frames) := .body h below room whole
            rw [putAll_snoc] at grown
            simpa [Reading.Covers, tokensOfKwargs_append, tokensOfKwargs, markerTokens] using grown
          · cases hnext

/-- A token where an expression may start. -/
theorem covers_start {ts : List Token} {frames : List Frame} {position : Nat} {token : Token}
    {next : Reading} (h : Open ts frames) (accepts : Accepts frames)
    (hnext : Reading.start frames position token = .ok next) : next.Covers (ts ++ [token]) := by
  cases token with
  | openParen =>
      simp only [Reading.start] at hnext
      split at hnext
      · rename_i room
        cases hnext
        exact .head h accepts room
      · cases hnext
  | closeParen => cases hnext
  | str s =>
      have leaf : (Derivation.literal (.str s) (.str s)).Valid (maxNesting - frames.length) :=
        .literal .str
      exact covers_supply h accepts leaf hnext
  | keyword name => cases hnext
  | word w =>
      obtain ⟨e, hword, hnext⟩ := ok_of_bind hnext
      rcases of_ofWord hword with ⟨l, denotes, rfl⟩ | ⟨symbol, rfl⟩
      · have leaf : (Derivation.literal (.word w) l).Valid (maxNesting - frames.length) :=
          .literal denotes
        exact covers_supply h accepts leaf hnext
      · have leaf : (Derivation.symbol w).Valid (maxNesting - frames.length) := .symbol symbol
        exact covers_supply h accepts leaf hnext

/-- A symbol behind an opening parenthesis names the operator. -/
theorem covers_operator {ts : List Token} {opened position : Nat} {frames : List Frame} {token : Token}
    {next : Reading} (h : Open ts frames) (accepts : Accepts frames)
    (room : frames.length < maxNesting)
    (hnext : Reading.step (.pending (.head opened :: frames)) (position, token) = .ok next) :
    next.Covers (ts ++ [.openParen] ++ [token]) := by
  cases token with
  | word w =>
      obtain ⟨e, hword, hnext⟩ := ok_of_bind hnext
      rcases of_ofWord hword with ⟨l, -, rfl⟩ | ⟨symbol, rfl⟩
      · cases hnext
      · cases hnext
        have part : (Derivation.list w [] []).Valid (maxNesting - frames.length) := by
          rw [room_succ room]
          exact .list symbol (by simp) (by simp) .nil
        have begun : Open _ (.body opened _ none :: frames) := .body h accepts room part
        rw [List.append_assoc]
        exact begun
  | openParen => cases hnext
  | closeParen => cases hnext
  | str s => cases hnext
  | keyword name => cases hnext

/-- One token more was read. -/
theorem covers_step {ts : List Token} {reading next : Reading} {position : Nat} {token : Token}
    (h : reading.Covers ts) (hnext : reading.step (position, token) = .ok next) :
    next.Covers (ts ++ [token]) := by
  cases reading with
  | complete e => cases token <;> cases hnext
  | pending frames =>
      have start : Accepts frames → token ≠ .closeParen → (∀ name, token ≠ .keyword name) →
          next.Covers (ts ++ [token]) := by
        intro accepts notClose notKeyword
        rw [step_start accepts position notClose notKeyword] at hnext
        exact covers_start h accepts hnext
      cases h with
      | nil => exact covers_start .nil trivial hnext
      | head h accepts room => exact covers_operator h accepts room hnext
      | @body ts opened op args kwargs pending frames h accepts room part =>
          cases pending with
          | some marked =>
              cases token with
              | closeParen => cases hnext
              | keyword name => cases hnext
              | _ => exact start trivial (by simp) (by simp)
          | none =>
              cases token with
              | closeParen =>
                  have closed := covers_supply h accepts part hnext
                  simpa [tokens, markerTokens] using closed
              | keyword name =>
                  cases hnext
                  have marked : Open _ (.body opened _ (some (position, name)) :: frames) :=
                    .body h accepts room part
                  simpa [Reading.Covers, markerTokens] using marked
              | _ =>
                  have empty : Sorted.putAll (treesOfKwargs kwargs) [] = [] := by
                    simp only [Reading.step] at hnext
                    exact List.isEmpty_iff.1 (ok_of_then hnext).1
                  exact start empty (by simp) (by simp)

theorem covers_foldlM {located : List (Nat × Token)} {ts : List Token} {reading next : Reading}
    (h : reading.Covers ts) (hfold : located.foldlM Reading.step reading = .ok next) :
    next.Covers (ts ++ located.map Prod.snd) := by
  induction located generalizing reading ts with
  | nil =>
      cases hfold
      rwa [List.map_nil, List.append_nil]
  | cons p located ih =>
      rw [List.foldlM_cons] at hfold
      obtain ⟨middle, hstep, hfold⟩ := ok_of_bind hfold
      have whole := ih (covers_step h hstep) hfold
      rwa [List.append_assoc] at whole

/-- The reader accepts the tokens of valid derivations, and yields their trees. -/
theorem complete_iff {located : List (Nat × Token)} {e : Expr} :
    located.foldlM Reading.step (.pending []) = .ok (.complete e) ↔
      ∃ d : Derivation, d.Valid maxNesting ∧ d.tokens = located.map Prod.snd ∧ d.tree = e := by
  constructor
  · intro hfold
    have nothing : Reading.Covers [] (.pending []) := Open.nil
    exact covers_foldlM nothing hfold
  · rintro ⟨d, valid, covered, rfl⟩
    exact leads_tokens valid [] trivial (by simp) located covered.symm

theorem parse_eq_ok_iff {text : String} {e : Expr} : parse text = .ok e ↔
    ∃ d : Derivation, d.Valid maxNesting ∧ Token.Splits text.toList d.tokens ∧ d.tree = e := by
  constructor
  · intro h
    obtain ⟨located, hscan, h⟩ := ok_of_bind h
    obtain ⟨reading, hfold, h⟩ := ok_of_bind h
    unfold Reading.finish at h
    split at h <;> cases h
    obtain ⟨d, valid, covered, rfl⟩ := complete_iff.1 hfold
    exact ⟨d, valid, covered ▸ Token.scan_iff_splits.1 ⟨located, hscan, rfl⟩, rfl⟩
  · rintro ⟨d, valid, splits, rfl⟩
    obtain ⟨located, hscan, covered⟩ := Token.scan_iff_splits.2 splits
    have read := complete_iff.2 ⟨d, valid, covered.symm, rfl⟩
    rw [parse, hscan]
    show (located.foldlM Reading.step (.pending [])).bind _ = _
    rw [read]
    rfl

end SeriesLang.Expr
