import SeriesLang.Expr.Token
import SeriesLang.Proofs.Success

/-! # The tokens of a text

A text is cut into tokens, and what stands between them is blank or a comment. A word reaches up to the
next delimiter. The scan finds the tokens where there are any: it accepts the texts that can be cut, and
leaves no choice in how.
-/

namespace SeriesLang.Token

/-- May a word end in front of these characters? -/
def Boundary : List Char → Prop
  | [] => True
  | c :: _ => isDelimiter c = true

/-- Characters that make up one bare word. -/
def IsWord (cs : List Char) : Prop :=
  cs ≠ [] ∧ ∀ c ∈ cs, isDelimiter c = false

/-- The letter behind a backslash and the character that the two stand for. -/
inductive Escape : Char → Char → Prop
  | quote : Escape '"' '"'
  | backslash : Escape '\\' '\\'
  | newline : Escape 'n' '\n'
  | tab : Escape 't' '\t'

/-- The characters between two quotes and the string that they stand for. -/
inductive Quoted : List Char → List Char → Prop
  | nil : Quoted [] []
  | plain {c cs s} (quote : c ≠ '"') (backslash : c ≠ '\\') (h : Quoted cs s) :
      Quoted (c :: cs) (c :: s)
  | escape {letter c cs s} (stands : Escape letter c) (h : Quoted cs s) :
      Quoted ('\\' :: letter :: cs) (c :: s)

/-- The ways to cut a text into tokens. -/
inductive Splits : List Char → List Token → Prop
  | nil : Splits [] []
  | blank {c cs ts} (hc : Text.isBlank c = true) (h : Splits cs ts) : Splits (c :: cs) ts
  | comment {body cs ts} (line : '\n' ∉ body) (h : Splits cs ts) :
      Splits (';' :: (body ++ '\n' :: cs)) ts
  /-- A comment without a line behind it. -/
  | lastComment {body} (line : '\n' ∉ body) : Splits (';' :: body) []
  | openParen {cs ts} (h : Splits cs ts) : Splits ('(' :: cs) (.openParen :: ts)
  | closeParen {cs ts} (h : Splits cs ts) : Splits (')' :: cs) (.closeParen :: ts)
  | str {body s cs ts} (quoted : Quoted body s) (h : Splits cs ts) :
      Splits ('"' :: (body ++ '"' :: cs)) (.str (String.ofList s) :: ts)
  | keyword {name cs ts} (word : IsWord name) (ends : Boundary cs) (h : Splits cs ts) :
      Splits ('#' :: ':' :: (name ++ cs)) (.keyword (String.ofList name) :: ts)
  | word {w cs ts} (word : IsWord w) (bare : ¬['#', ':'] <+: w) (ends : Boundary cs)
      (h : Splits cs ts) : Splits (w ++ cs) (.word (String.ofList w) :: ts)

theorem Quoted.append {cs ds s t : List Char} (h : Quoted cs s) (k : Quoted ds t) :
    Quoted (cs ++ ds) (s ++ t) := by
  induction h with
  | nil => exact k
  | plain quote backslash _ ih => exact .plain quote backslash ih
  | escape stands _ ih => exact .escape stands ih

/-- Words and keyword names have no delimiter in them. -/
def Clean : Token → Prop
  | .word text => IsWord text.toList
  | .keyword name => IsWord name.toList
  | _ => True

theorem Splits.clean {cs : List Char} {ts : List Token} (h : Splits cs ts) : ∀ t ∈ ts, t.Clean := by
  induction h with
  | nil | lastComment => simp
  | blank _ _ ih | comment _ _ ih => exact ih
  | openParen _ ih | closeParen _ ih | str _ _ ih => exact List.forall_mem_cons.2 ⟨trivial, ih⟩
  | keyword word _ _ ih | word word _ _ _ ih =>
      refine List.forall_mem_cons.2 ⟨?_, ih⟩
      rwa [Clean, String.toList_ofList]

/-! ## What can be cut is scanned -/

/-- A character hands the tokens it completes to those of the rest. -/
theorem scanFrom_cons {mode next : Mode} {position : Nat} {c : Char} {tokens : List (Nat × Token)}
    (h : mode.step position c = .ok (tokens, next)) (rest : List Char) :
    scanFrom mode position (c :: rest) =
      (scanFrom next (position + c.utf8Size) rest).map (tokens ++ ·) := by
  rw [scanFrom, h]
  rfl

theorem map_nil_append {α ε : Type} (r : Except ε (List α)) : r.map ([] ++ ·) = r := by
  cases r <;> rfl

theorem map_map_append {α ε : Type} (first second : List α) (r : Except ε (List α)) :
    (r.map (second ++ ·)).map (first ++ ·) = r.map ((first ++ second) ++ ·) := by
  cases r with
  | error e => rfl
  | ok tokens => simp only [Except.map, List.append_assoc]

/-- A character that completes no token leaves the scan in another mode. -/
theorem scanFrom_silent {mode next : Mode} {position : Nat} {c : Char}
    (h : mode.step position c = .ok ([], next)) (rest : List Char) :
    scanFrom mode position (c :: rest) = scanFrom next (position + c.utf8Size) rest := by
  rw [scanFrom_cons h, map_nil_append]

/-- Outside of words, strings and comments a character that is no delimiter starts a word. -/
theorem enter_of_not_delimiter {c : Char} (h : isDelimiter c = false) (position : Nat) :
    Mode.enter position c = ([], .inWord position [c]) := by
  simp only [isDelimiter, Bool.or_eq_false_iff, beq_eq_false_iff_ne] at h
  obtain ⟨⟨⟨⟨blank, notOpen⟩, notClose⟩, notQuote⟩, notSemicolon⟩ := h
  unfold Mode.enter
  rw [if_neg (by rw [blank]; exact Bool.false_ne_true)]
  split
  · exact absurd rfl notSemicolon
  · exact absurd rfl notOpen
  · exact absurd rfl notClose
  · exact absurd rfl notQuote
  · rfl

/-- Within a word the scan runs on to its end. -/
theorem scanFrom_inWord {cs : List Char} (h : ∀ c ∈ cs, isDelimiter c = false) (start position : Nat)
    (seen rest : List Char) : ∃ next,
      scanFrom (.inWord start seen) position (cs ++ rest) =
        scanFrom (.inWord start (cs.reverse ++ seen)) next rest := by
  induction cs generalizing position seen with
  | nil => exact ⟨position, rfl⟩
  | cons c cs ih =>
      have plain : isDelimiter c = false := h c List.mem_cons_self
      have step : (Mode.inWord start seen).step position c = .ok ([], .inWord start (c :: seen)) := by
        simp only [Mode.step, plain, Bool.false_eq_true, if_false]
      obtain ⟨next, hnext⟩ := ih (fun d hd => h d (List.mem_cons_of_mem _ hd))
        (position + c.utf8Size) (c :: seen)
      refine ⟨next, ?_⟩
      rw [List.cons_append, scanFrom_silent step, hnext, List.reverse_cons, List.append_assoc,
        List.singleton_append]

/-- A word ends at a boundary. -/
theorem scanFrom_inWord_boundary {rest : List Char} (h : Boundary rest) (start position : Nat)
    (seen : List Char) {t : Token} (ht : ofWord start seen.reverse = .ok t) :
    scanFrom (.inWord start seen) position rest =
      (scanFrom .between position rest).map ([(start, t)] ++ ·) := by
  cases rest with
  | nil =>
      simp only [scanFrom, Mode.finish, ht]
      rfl
  | cons c rest =>
      have ends : isDelimiter c = true := h
      have step : (Mode.inWord start seen).step position c =
          .ok ((start, t) :: (Mode.enter position c).1, (Mode.enter position c).2) := by
        simp only [Mode.step, ends, if_true, ht]
        rfl
      have enter : Mode.between.step position c =
          .ok ((Mode.enter position c).1, (Mode.enter position c).2) := rfl
      rw [scanFrom_cons step, scanFrom_cons enter, map_map_append, List.singleton_append]

/-- A bare word is one token. -/
theorem scanFrom_word {w rest : List Char} {t : Token} (word : IsWord w) (ends : Boundary rest)
    (position : Nat) (ht : ofWord position w = .ok t) : ∃ next,
      scanFrom .between position (w ++ rest) =
        (scanFrom .between next rest).map ([(position, t)] ++ ·) := by
  obtain ⟨nonempty, plain⟩ := word
  obtain ⟨c, cs, rfl⟩ := List.exists_cons_of_ne_nil nonempty
  have enter : Mode.between.step position c = .ok ([], .inWord position [c]) :=
    congrArg Except.ok (enter_of_not_delimiter (plain c List.mem_cons_self) position)
  obtain ⟨next, hnext⟩ := scanFrom_inWord (fun d hd => plain d (List.mem_cons_of_mem _ hd))
    position (position + c.utf8Size) [c] rest
  have whole : ofWord position (cs.reverse ++ [c]).reverse = .ok t := by
    rw [List.reverse_append, List.reverse_reverse]
    exact ht
  refine ⟨next, ?_⟩
  rw [List.cons_append, scanFrom_silent enter, hnext,
    scanFrom_inWord_boundary ends position next _ whole]

theorem Escape.step {letter c : Char} (h : Escape letter c) (start slash position : Nat)
    (seen : List Char) : (Mode.inEscape start slash seen).step position letter =
      .ok ([], .inString start (c :: seen)) := by
  cases h <;> rfl

/-- Within a string the scan runs on to the closing quote. -/
theorem scanFrom_inString {body s : List Char} (h : Quoted body s) (start position : Nat)
    (seen rest : List Char) : ∃ next,
      scanFrom (.inString start seen) position (body ++ rest) =
        scanFrom (.inString start (s.reverse ++ seen)) next rest := by
  induction h generalizing position seen with
  | nil => exact ⟨position, rfl⟩
  | @plain c body s quote backslash _ ih =>
      have step : (Mode.inString start seen).step position c =
          .ok ([], .inString start (c :: seen)) := by
        simp only [Mode.step]
      obtain ⟨next, hnext⟩ := ih (position + c.utf8Size) (c :: seen)
      refine ⟨next, ?_⟩
      rw [List.cons_append, scanFrom_silent step, hnext, List.reverse_cons, List.append_assoc,
        List.singleton_append]
  | @escape letter c body s stands _ ih =>
      have slash : (Mode.inString start seen).step position '\\' =
          .ok ([], .inEscape start position seen) := rfl
      obtain ⟨next, hnext⟩ := ih (position + '\\'.utf8Size + letter.utf8Size) (c :: seen)
      refine ⟨next, ?_⟩
      rw [List.cons_append, List.cons_append, scanFrom_silent slash,
        scanFrom_silent (stands.step start position _ seen), hnext, List.reverse_cons,
        List.append_assoc, List.singleton_append]

/-- Within a comment the scan runs on to the end of the line. -/
theorem scanFrom_comment {body : List Char} (line : '\n' ∉ body) (position : Nat)
    (rest : List Char) : ∃ next,
      scanFrom .comment position (body ++ rest) = scanFrom .comment next rest := by
  induction body generalizing position with
  | nil => exact ⟨position, rfl⟩
  | cons c body ih =>
      obtain ⟨other, line⟩ : '\n' ≠ c ∧ '\n' ∉ body := by simpa using line
      have step : Mode.comment.step position c = .ok ([], .comment) := by
        simp only [Mode.step, if_neg (Ne.symm other)]
      obtain ⟨next, hnext⟩ := ih line (position + c.utf8Size)
      exact ⟨next, by rw [List.cons_append, scanFrom_silent step, hnext]⟩

theorem ofWord_of_bare {w : List Char} (bare : ¬['#', ':'] <+: w) (start : Nat) :
    ofWord start w = .ok (.word (String.ofList w)) := by
  unfold ofWord
  split
  · exact absurd (List.prefix_refl _) bare
  · exact absurd (List.prefix_append ['#', ':'] _) bare
  · rfl

theorem ofWord_marker {name : List Char} (h : name ≠ []) (start : Nat) :
    ofWord start ('#' :: ':' :: name) = .ok (.keyword (String.ofList name)) := by
  unfold ofWord
  split
  · rename_i heq
    exact absurd (List.cons.inj (List.cons.inj heq).2).2 h
  · rename_i heq
    rw [← (List.cons.inj (List.cons.inj heq).2).2]
  · rename_i other
    exact absurd rfl (other _)

theorem IsWord.marker {name : List Char} (h : IsWord name) : IsWord ('#' :: ':' :: name) := by
  have markers : isDelimiter '#' = false ∧ isDelimiter ':' = false := by decide
  exact ⟨List.cons_ne_nil _ _,
    List.forall_mem_cons.2 ⟨markers.1, List.forall_mem_cons.2 ⟨markers.2, h.2⟩⟩⟩

/-- A text that can be cut is scanned as those tokens. -/
theorem Splits.scan {cs : List Char} {ts : List Token} (h : Splits cs ts) (position : Nat) :
    ∃ located, scanFrom .between position cs = .ok located ∧ located.map Prod.snd = ts := by
  -- Tokens in front of a rest that is scanned.
  have push : ∀ {cs rest : List Char} {ts : List Token} {position next : Nat}
      (first : List (Nat × Token)), scanFrom .between position cs =
        (scanFrom .between next rest).map (first ++ ·) →
      (∃ located, scanFrom .between next rest = .ok located ∧ located.map Prod.snd = ts) →
      ∃ located, scanFrom .between position cs = .ok located ∧
        located.map Prod.snd = first.map Prod.snd ++ ts := by
    rintro cs rest ts position next first eq ⟨located, scan, rfl⟩
    exact ⟨first ++ located, by rw [eq, scan]; rfl, List.map_append⟩
  induction h generalizing position with
  | nil => exact ⟨[], rfl, rfl⟩
  | @blank c cs ts hc _ ih =>
      have passes : Mode.enter position c = ([], .between) := by
        unfold Mode.enter
        exact if_pos hc
      have step : Mode.between.step position c = .ok ([], .between) := congrArg Except.ok passes
      rw [scanFrom_silent step]
      exact ih _
  | @comment body cs ts line _ ih =>
      have enter : Mode.between.step position ';' = .ok ([], .comment) := rfl
      obtain ⟨next, hnext⟩ := scanFrom_comment line (position + ';'.utf8Size) ('\n' :: cs)
      have ends : Mode.comment.step next '\n' = .ok ([], .between) := rfl
      rw [scanFrom_silent enter, hnext, scanFrom_silent ends]
      exact ih _
  | @lastComment body line =>
      have enter : Mode.between.step position ';' = .ok ([], .comment) := rfl
      obtain ⟨next, hnext⟩ := scanFrom_comment line (position + ';'.utf8Size) []
      rw [List.append_nil] at hnext
      exact ⟨[], by rw [scanFrom_silent enter, hnext]; rfl, rfl⟩
  | @openParen cs ts _ ih =>
      have enter : Mode.between.step position '(' = .ok ([(position, .openParen)], .between) := rfl
      exact push [(position, .openParen)] (scanFrom_cons enter cs) (ih _)
  | @closeParen cs ts _ ih =>
      have enter : Mode.between.step position ')' = .ok ([(position, .closeParen)], .between) := rfl
      exact push [(position, .closeParen)] (scanFrom_cons enter cs) (ih _)
  | @str body s cs ts quoted _ ih =>
      have opens : Mode.between.step position '"' = .ok ([], .inString position []) := rfl
      obtain ⟨last, inside⟩ :=
        scanFrom_inString quoted position (position + '"'.utf8Size) [] ('"' :: cs)
      rw [List.append_nil] at inside
      have closes : (Mode.inString position s.reverse).step last '"' =
          .ok ([(position, .str (String.ofList s))], .between) := by
        show Except.ok ([(position, Token.str (String.ofList s.reverse.reverse))], Mode.between) = _
        rw [List.reverse_reverse]
      refine push [(position, .str (String.ofList s))] ?_ (ih (last + '"'.utf8Size))
      rw [scanFrom_silent opens, inside, scanFrom_cons closes]
  | @keyword name cs ts word ends _ ih =>
      obtain ⟨next, hnext⟩ :=
        scanFrom_word word.marker ends position (ofWord_marker word.1 position)
      exact push [(position, .keyword (String.ofList name))] hnext (ih next)
  | @word w cs ts word bare ends _ ih =>
      obtain ⟨next, hnext⟩ := scanFrom_word word ends position (ofWord_of_bare bare position)
      exact push [(position, .word (String.ofList w))] hnext (ih next)

/-! ## What is scanned can be cut -/

/-- The characters that lead from outside of tokens to where the scan stands. -/
inductive Mode.Reached : Mode → List Char → Prop
  | between : Reached .between []
  | comment {body} (line : '\n' ∉ body) : Reached .comment (';' :: body)
  | inWord {start seen} (word : IsWord seen.reverse) : Reached (.inWord start seen) seen.reverse
  | inString {start seen body} (quoted : Quoted body seen.reverse) :
      Reached (.inString start seen) ('"' :: body)
  | inEscape {start slash seen body} (quoted : Quoted body seen.reverse) :
      Reached (.inEscape start slash seen) ('"' :: (body ++ ['\\']))

theorem isWord_snoc {cs : List Char} {c : Char} (h : ∀ d ∈ cs, isDelimiter d = false)
    (hc : isDelimiter c = false) : IsWord (cs ++ [c]) :=
  ⟨by simp, List.forall_mem_append.2 ⟨h, List.forall_mem_singleton.2 hc⟩⟩

/-- A word that was taken as a token stands for it. -/
theorem Splits.ofWord {w cs : List Char} {ts : List Token} {start : Nat} {t : Token} (word : IsWord w)
    (ht : Token.ofWord start w = .ok t) (ends : Boundary cs) (h : Splits cs ts) :
    Splits (w ++ cs) (t :: ts) := by
  unfold Token.ofWord at ht
  split at ht
  · cases ht
  · rename_i name notBare
    cases ht
    refine .keyword ⟨fun hname => notBare hname, fun c hc => word.2 c ?_⟩ ends h
    exact List.mem_cons_of_mem _ (List.mem_cons_of_mem _ hc)
  · rename_i other
    cases ht
    refine .word word (fun marked => ?_) ends h
    obtain ⟨name, rfl⟩ := marked
    exact other name rfl

theorem reached_enter (position : Nat) (c : Char) :
    ∃ before, (Mode.enter position c).2.Reached before ∧ ∀ cs ts, Splits (before ++ cs) ts →
      Splits (c :: cs) ((Mode.enter position c).1.map Prod.snd ++ ts) := by
  cases hc : isDelimiter c with
  | false =>
      rw [enter_of_not_delimiter hc]
      have word : IsWord [c] := ⟨List.cons_ne_nil c [], List.forall_mem_singleton.2 hc⟩
      exact ⟨[c], .inWord word, fun cs ts h => h⟩
  | true =>
      unfold Mode.enter
      split
      · rename_i blank
        exact ⟨[], .between, fun cs ts h => .blank blank h⟩
      · split
        · exact ⟨[';'], .comment (by simp), fun cs ts h => h⟩
        · exact ⟨[], .between, fun cs ts h => .openParen h⟩
        · exact ⟨[], .between, fun cs ts h => .closeParen h⟩
        · exact ⟨['"'], .inString .nil, fun cs ts h => h⟩
        · rename_i blank notSemicolon notOpen notClose notQuote
          simp_all [isDelimiter]

/-- One character further, what was read before leads to the new place and gives the tokens that the
    character completes. -/
theorem reached_step {mode next : Mode} {position : Nat} {c : Char} {tokens : List (Nat × Token)}
    {before : List Char} (h : mode.Reached before)
    (hstep : mode.step position c = .ok (tokens, next)) :
    ∃ before', next.Reached before' ∧ ∀ cs ts, Splits (before' ++ cs) ts →
      Splits (before ++ c :: cs) (tokens.map Prod.snd ++ ts) := by
  cases h with
  | between =>
      have entered := reached_enter position c
      rwa [Except.ok.inj hstep] at entered
  | @comment body line =>
      cases hstep
      split
      · rename_i newline
        subst newline
        exact ⟨[], .between, fun cs ts h => .comment line h⟩
      · rename_i other
        refine ⟨';' :: (body ++ [c]), .comment (by simp [line, Ne.symm other]), fun cs ts h => ?_⟩
        simpa using h
  | @inWord start seen word =>
      simp only [Mode.step] at hstep
      split at hstep
      · rename_i ends
        obtain ⟨t, ht, hstep⟩ := ok_of_bind hstep
        cases hstep
        obtain ⟨before, reached, splits⟩ := reached_enter position c
        exact ⟨before, reached, fun cs ts h => .ofWord word ht ends (splits cs ts h)⟩
      · rename_i plain
        cases hstep
        refine ⟨(c :: seen).reverse, .inWord ?_, fun cs ts h => ?_⟩
        · rw [List.reverse_cons]
          exact isWord_snoc word.2 (Bool.not_eq_true _ ▸ plain)
        · simpa using h
  | @inString start seen body quoted =>
      simp only [Mode.step] at hstep
      split at hstep
      · cases hstep
        exact ⟨[], .between, fun cs ts h => .str quoted h⟩
      · cases hstep
        refine ⟨'"' :: (body ++ ['\\']), .inEscape quoted, fun cs ts h => ?_⟩
        simpa using h
      · rename_i quote backslash
        cases hstep
        refine ⟨'"' :: (body ++ [c]), .inString ?_, fun cs ts h => by simpa using h⟩
        rw [List.reverse_cons]
        exact quoted.append (.plain quote backslash .nil)
  | @inEscape start slash seen body quoted =>
      have push : ∀ {letter c}, Escape letter c → ∃ before',
          (Mode.inString start (c :: seen)).Reached before' ∧ ∀ cs ts, Splits (before' ++ cs) ts →
            Splits ('"' :: (body ++ ['\\']) ++ letter :: cs) ts := by
        intro letter c stands
        refine ⟨'"' :: (body ++ ['\\', letter]), .inString ?_, fun cs ts h => by simpa using h⟩
        rw [List.reverse_cons]
        exact quoted.append (.escape stands .nil)
      simp only [Mode.step] at hstep
      split at hstep <;> cases hstep
      · exact push .quote
      · exact push .backslash
      · exact push .newline
      · exact push .tab

theorem splits_of_scanFrom {mode : Mode} {before cs : List Char} {position : Nat}
    {located : List (Nat × Token)} (h : mode.Reached before)
    (hscan : scanFrom mode position cs = .ok located) :
    Splits (before ++ cs) (located.map Prod.snd) := by
  induction cs generalizing mode before position located with
  | nil =>
      rw [scanFrom] at hscan
      cases h with
      | between =>
          cases hscan
          exact .nil
      | comment line =>
          cases hscan
          rw [List.append_nil]
          exact .lastComment line
      | inWord word =>
          obtain ⟨t, ht, hscan⟩ := ok_of_bind hscan
          cases hscan
          exact .ofWord word ht trivial .nil
      | inString => cases hscan
      | inEscape => cases hscan
  | cons c cs ih =>
      rw [scanFrom] at hscan
      obtain ⟨⟨tokens, next⟩, hstep, hscan⟩ := ok_of_bind hscan
      obtain ⟨others, hothers, hscan⟩ := ok_of_bind hscan
      cases hscan
      obtain ⟨before', reached, splits⟩ := reached_step h hstep
      rw [List.map_append]
      exact splits cs _ (ih reached hothers)

/-- The scan accepts the texts that can be cut, and finds the tokens. -/
theorem scan_iff_splits {cs : List Char} {ts : List Token} :
    (∃ located, scan cs = .ok located ∧ located.map Prod.snd = ts) ↔ Splits cs ts := by
  constructor
  · rintro ⟨located, hscan, rfl⟩
    exact splits_of_scanFrom .between hscan
  · exact fun h => h.scan 0

end SeriesLang.Token
