import SeriesLang.Proofs.Expr.Reader

/-! # The grammar of texts

A text is read as an expression exactly when its tokens are those of a derivation. The tree of a
derivation knows neither what stands between the tokens nor the order of keywords. Every other text is
refused, with an error at a boundary between two of its characters: the scan notes only where characters
start, and the reader only what the scan noted, or the end.
-/

namespace SeriesLang

/-- An error lies at such a place, and a result is of such a kind. -/
def Placed {α : Type} (P : Nat → Prop) (Q : α → Prop) : Except ParseError α → Prop
  | .ok a => Q a
  | .error err => P err.position

variable {P : Nat → Prop} {α β : Type} {Q : α → Prop} {R : β → Prop}

theorem Placed.bind {r : Except ParseError α} {f : α → Except ParseError β} (h : Placed P Q r)
    (rest : ∀ a, Q a → Placed P R (f a)) : Placed P R (r.bind f) := by
  cases r with
  | ok a => exact rest a h
  | error err => exact h

theorem Placed.foldlM {f : β → α → Except ParseError β} {as : List α} {b : β} (h : R b)
    (all : ∀ a ∈ as, Q a) (step : ∀ b a, R b → Q a → Placed P R (f b a)) :
    Placed P R (as.foldlM f b) := by
  induction as generalizing b with
  | nil => exact h
  | cons a as ih =>
      obtain ⟨here, later⟩ := List.forall_mem_cons.1 all
      rw [List.foldlM_cons]
      exact (step b a h here).bind fun b hb => ih hb later

namespace Token

/-- The places that a scan has noted. -/
def Mode.Places (P : Nat → Prop) : Mode → Prop
  | .between | .comment => True
  | .inWord start _ | .inString start _ => P start
  | .inEscape start slash _ => P start ∧ P slash

theorem placed_ofWord {start : Nat} (h : P start) (w : List Char) :
    Placed P (fun _ => True) (ofWord start w) := by
  unfold ofWord
  split
  · exact h
  · trivial
  · trivial

theorem places_enter {position : Nat} (h : P position) (c : Char) :
    (∀ p ∈ (Mode.enter position c).1, P p.1) ∧ (Mode.enter position c).2.Places P := by
  unfold Mode.enter
  split
  · exact ⟨by simp, trivial⟩
  · split
    · exact ⟨by simp, trivial⟩
    · exact ⟨by simpa using h, trivial⟩
    · exact ⟨by simpa using h, trivial⟩
    · exact ⟨by simp, h⟩
    · exact ⟨by simp, h⟩

theorem placed_step {mode : Mode} (h : mode.Places P) {position : Nat} (hp : P position) (c : Char) :
    Placed P (fun r => (∀ p ∈ r.1, P p.1) ∧ r.2.Places P) (mode.step position c) := by
  cases mode with
  | between => exact places_enter hp c
  | comment =>
      refine ⟨by simp, ?_⟩
      split <;> trivial
  | inWord start seen =>
      have hstart : P start := h
      simp only [Mode.step]
      split
      · obtain ⟨noted, next⟩ := places_enter hp c
        exact (placed_ofWord hstart seen.reverse).bind fun token _ =>
          ⟨List.forall_mem_cons.2 ⟨hstart, noted⟩, next⟩
      · exact ⟨by simp, hstart⟩
  | inString start seen =>
      have hstart : P start := h
      simp only [Mode.step]
      split
      · exact ⟨by simpa using hstart, trivial⟩
      · exact ⟨by simp, hstart, hp⟩
      · exact ⟨by simp, hstart⟩
  | inEscape start slash seen =>
      obtain ⟨hstart, hslash⟩ := h
      simp only [Mode.step]
      split
      · exact ⟨by simp, hstart⟩
      · exact ⟨by simp, hstart⟩
      · exact ⟨by simp, hstart⟩
      · exact ⟨by simp, hstart⟩
      · exact hslash

/-- The places in front of a character, and the end. -/
def Marks (P : Nat → Prop) : Nat → List Char → Prop
  | position, [] => P position
  | position, c :: rest => P position ∧ Marks P (position + c.utf8Size) rest

theorem placed_scanFrom {cs : List Char} {mode : Mode} {position : Nat} (h : mode.Places P)
    (marks : Marks P position cs) :
    Placed P (fun located => ∀ p ∈ located, P p.1) (scanFrom mode position cs) := by
  induction cs generalizing mode position with
  | nil =>
      cases mode with
      | between | comment => exact List.forall_mem_nil _
      | inWord start seen =>
          have hstart : P start := h
          exact (placed_ofWord hstart seen.reverse).bind fun token _ =>
            List.forall_mem_singleton.2 hstart
      | inString => exact h
      | inEscape => exact h.1
  | cons c cs ih =>
      obtain ⟨here, later⟩ := marks
      rw [scanFrom]
      refine (placed_step h here c).bind ?_
      rintro ⟨tokens, next⟩ ⟨noted, places⟩
      exact (ih places later).bind fun others hothers => List.forall_mem_append.2 ⟨noted, hothers⟩

theorem marks_of_boundaries {cs : List Char} {position : Nat}
    (h : ∀ before after, cs = before ++ after → P (position + (String.ofList before).utf8ByteSize)) :
    Marks P position cs := by
  induction cs generalizing position with
  | nil => exact h [] [] rfl
  | cons c cs ih =>
      refine ⟨h [] (c :: cs) rfl, ih fun before after split => ?_⟩
      have shifted := h (c :: before) after (by rw [split, List.cons_append])
      rwa [String.ofList_cons, String.utf8ByteSize_append, String.utf8ByteSize_singleton,
        ← Nat.add_assoc] at shifted

end Token

namespace Expr

/-- The places that the open applications remember. -/
def Frame.Places (P : Nat → Prop) : Frame → Prop
  | .head opened => P opened
  | .body opened _ pending => P opened ∧ ∀ marked ∈ pending, P marked.1

def Reading.Places (P : Nat → Prop) : Reading → Prop
  | .pending frames => ∀ frame ∈ frames, frame.Places P
  | .complete _ => True

theorem placed_supply {frames : List Frame} (h : ∀ frame ∈ frames, frame.Places P) (e : Expr) :
    Placed P (Reading.Places P) (Reading.supply e frames) := by
  match frames with
  | [] => trivial
  | .head opened :: rest => exact h _ List.mem_cons_self
  | .body opened ⟨op, args, kwargs⟩ none :: rest =>
      obtain ⟨here, below⟩ := List.forall_mem_cons.1 h
      exact List.forall_mem_cons.2 ⟨here, below⟩
  | .body opened ⟨op, args, kwargs⟩ (some (position, name)) :: rest =>
      obtain ⟨here, below⟩ := List.forall_mem_cons.1 h
      simp only [Reading.supply]
      split
      · exact List.forall_mem_cons.2 ⟨⟨here.1, by simp⟩, below⟩
      · exact here.2 _ rfl

theorem placed_ofWord {position : Nat} (hp : P position) (w : String) :
    Placed P (fun _ => True) (ofWord position w) := by
  cases read : ofWord position w with
  | ok e => trivial
  | error err =>
      show P err.position
      rwa [position_of_ofWord read]

theorem placed_start {frames : List Frame} (h : ∀ frame ∈ frames, frame.Places P) {position : Nat}
    (hp : P position) (token : Token) :
    Placed P (Reading.Places P) (Reading.start frames position token) := by
  cases token with
  | openParen =>
      simp only [Reading.start]
      split
      · exact List.forall_mem_cons.2 ⟨hp, h⟩
      · exact hp
  | closeParen => exact hp
  | str s => exact placed_supply h _
  | keyword name => exact hp
  | word w => exact (placed_ofWord hp w).bind fun e _ => placed_supply h e

theorem Reading.placed_step {reading : Reading} (h : reading.Places P) {located : Nat × Token}
    (hp : P located.1) : Placed P (Reading.Places P) (reading.step located) := by
  obtain ⟨position, token⟩ := located
  match reading with
  | .complete e =>
      cases token <;> exact hp
  | .pending [] => exact placed_start h hp token
  | .pending (.head opened :: rest) =>
      obtain ⟨here, below⟩ := List.forall_mem_cons.1 h
      cases token with
      | word w =>
          refine (placed_ofWord hp w).bind fun e _ => ?_
          cases e with
          | symbol op => exact List.forall_mem_cons.2 ⟨⟨here, by simp⟩, below⟩
          | literal | call => exact hp
      | closeParen => exact here
      | openParen | str | keyword => exact hp
  | .pending (.body opened application (some (marked, name)) :: rest) =>
      obtain ⟨here, below⟩ := List.forall_mem_cons.1 h
      have start := placed_start h hp
      cases token with
      | closeParen | keyword => exact here.2 _ rfl
      | openParen => exact start .openParen
      | str s => exact start (.str s)
      | word w => exact start (.word w)
  | .pending (.body opened application none :: rest) =>
      obtain ⟨here, below⟩ := List.forall_mem_cons.1 h
      have start : ∀ token, Placed P (Reading.Places P)
          (if application.kwargs.isEmpty then
            Reading.start (.body opened application none :: rest) position token
          else .error ⟨position, .positionalAfterKeyword⟩) := by
        intro token
        split
        · exact placed_start h hp token
        · exact hp
      cases token with
      | closeParen => exact placed_supply below _
      | keyword name =>
          refine List.forall_mem_cons.2 ⟨⟨here.1, fun marked hmarked => ?_⟩, below⟩
          rw [← Option.some.inj hmarked]
          exact hp
      | openParen => exact start .openParen
      | str s => exact start (.str s)
      | word w => exact start (.word w)

theorem Reading.placed_finish {reading : Reading} (h : reading.Places P) {position : Nat}
    (hp : P position) : Placed P (fun _ => True) (reading.finish position) := by
  match reading with
  | .complete e => trivial
  | .pending [] => exact hp
  | .pending (.head opened :: rest) => exact h _ List.mem_cons_self
  | .pending (.body opened application (some (marked, name)) :: rest) =>
      exact (h _ List.mem_cons_self).2 _ rfl
  | .pending (.body opened application none :: rest) => exact (h _ List.mem_cons_self).1

/-- A text is refused at a boundary between its characters. -/
theorem placed_parse (text : String) :
    Placed (fun n => (⟨n⟩ : String.Pos.Raw).IsValid text) (fun _ => True) (parse text) := by
  have boundaries : ∀ before after, text.toList = before ++ after →
      (⟨0 + (String.ofList before).utf8ByteSize⟩ : String.Pos.Raw).IsValid text := by
    intro before after split
    refine String.Pos.Raw.isValid_iff_exists_append.2
      ⟨String.ofList before, String.ofList after, ?_, ?_⟩
    · rw [← String.ofList_append, ← split, String.ofList_toList]
    · rw [Nat.zero_add]
      rfl
  have ends : (⟨text.utf8ByteSize⟩ : String.Pos.Raw).IsValid text :=
    String.Pos.Raw.isValid_rawEndPos
  have between : Token.Mode.Places (fun n => (⟨n⟩ : String.Pos.Raw).IsValid text) .between := trivial
  refine (Token.placed_scanFrom between (Token.marks_of_boundaries boundaries)).bind ?_
  intro located noted
  have nothing : Reading.Places (fun n => (⟨n⟩ : String.Pos.Raw).IsValid text) (.pending []) :=
    List.forall_mem_nil _
  refine (Placed.foldlM nothing noted fun reading p h hp => Reading.placed_step h hp).bind ?_
  exact fun reading h => Reading.placed_finish h ends

/-- The text is cut into the tokens of the derivation, which lies no deeper than is read. -/
def Derives (text : String) (d : Derivation) : Prop :=
  Token.Splits text.toList d.tokens ∧ d.Valid maxNesting

/-- A text is read as the tree of its derivation. That tree is also read from every text with the same
    tokens, and from those in which the keyword pairs of lists come in another order. A text without a
    derivation is refused with an error at one of its character boundaries. -/
theorem parse_iff_derives (text : String) :
    (∀ e, parse text = .ok e ↔ ∃ d, Derives text d ∧ d.tree = e) ∧
      (∀ d d' other, Derives text d → Relation.ReflTransGen Derivation.Reorders d d' →
        Token.Splits other.toList d'.tokens → parse other = parse text) ∧
      ((¬∃ d, Derives text d) → ∃ err, parse text = .error err ∧
        ofText text = .error (.parse err) ∧ (⟨err.position⟩ : String.Pos.Raw).IsValid text ∧
        err.position ≤ text.utf8ByteSize) := by
  have accepts : ∀ {text e}, parse text = .ok e ↔ ∃ d, Derives text d ∧ d.tree = e := by
    intro text e
    rw [parse_eq_ok_iff]
    constructor
    · rintro ⟨d, valid, splits, same⟩
      exact ⟨d, ⟨splits, valid⟩, same⟩
    · rintro ⟨d, ⟨splits, valid⟩, same⟩
      exact ⟨d, valid, splits, same⟩
  refine ⟨fun e => accepts, fun d d' other derives reordered splits => ?_, fun none => ?_⟩
  · obtain ⟨valid, same⟩ := Derivation.same_of_reordered reordered derives.2
    rw [accepts.2 ⟨d, derives, rfl⟩, accepts.2 ⟨d', ⟨splits, valid⟩, same⟩]
  · have placed := placed_parse text
    cases read : parse text with
    | ok e =>
        obtain ⟨d, derives, -⟩ := accepts.1 read
        exact absurd ⟨d, derives⟩ none
    | error err =>
        rw [read] at placed
        have boundary : (⟨err.position⟩ : String.Pos.Raw).IsValid text := placed
        exact ⟨err, rfl, by rw [ofText, read], boundary, boundary.le_utf8ByteSize⟩

theorem isSymbol_of_all {name : String} (plain : name.toList.head? ≠ some '#')
    (noNumber : startsNumeric name.toList = false) : IsSymbol name :=
  ⟨plain, fun begins => by
    rw [startsNumeric_iff.2 begins] at noNumber
    cases noNumber⟩

theorem parse_iff_derives_keywords :
    ∃ d, Derives "(series \"a\" #:weight 2 #:fill #t) ; both" d ∧
      parse "( series \"a\"\n#:fill #t #:weight 2)" =
        parse "(series \"a\" #:weight 2 #:fill #t) ; both" := by
  have name : IsSymbol "series" := isSymbol_of_all (by decide) (by decide)
  have two : Numeral.Written "2".toList ⟨false, ['2'], none, none⟩ :=
    Numeral.ofChars?_eq_some_iff.1 (by decide)
  have weight : Derivation.Valid 255 (.literal (.word "2") (.int 2)) :=
    .literal (.int two rfl (by decide))
  have fill : Derivation.Valid 255 (.literal (.word "#t") (.bool true)) := .literal .true
  have valid : Derivation.Valid maxNesting (.list "series" [.literal (.str "a") (.str "a")]
      [("weight", .literal (.word "2") (.int 2)), ("fill", .literal (.word "#t") (.bool true))]) :=
    .list name (List.forall_mem_singleton.2 (.literal .str)) (by simp [weight, fill]) (by decide)
  have splits : ∀ {cs : List Char} {ts : List Token},
      ((Token.scan cs).toOption.map (·.map Prod.snd)) = some ts → Token.Splits cs ts := by
    intro cs ts h
    obtain ⟨located, scanned, same⟩ := Option.map_eq_some_iff.1 h
    exact Token.scan_iff_splits.1 ⟨located, toOption_eq_some_iff.1 scanned, same⟩
  have derives : Derives "(series \"a\" #:weight 2 #:fill #t) ; both" _ :=
    ⟨splits (by decide +kernel), valid⟩
  refine ⟨_, derives, (parse_iff_derives _).2.1 _ _ _ derives (.single (.here (.swap _ _ []))) ?_⟩
  exact splits (by decide +kernel)

end Expr

end SeriesLang
