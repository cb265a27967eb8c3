import Mathlib.Data.List.Forall2
import SeriesLang.Operator.Body
import SeriesLang.Proofs.Sorted
import SeriesLang.Proofs.Success

/-! # Related arguments

Two evaluations of one expression meet the same scalars and series that stand in some relation. Binding
arguments to parameters keeps that, and whatever reads a scalar out of them reads the same on both sides.
-/

namespace SeriesLang

/-- Values that are equal but for series, which stand in a relation. -/
inductive Value.Related (S : Series → Series → Prop) : Value → Value → Prop
  | scalar {v} (h : v.series? = none) : Value.Related S v v
  | series {s s'} (h : S s s') : Value.Related S (.series s) (.series s')

variable {S : Series → Series → Prop}

namespace Value

variable {v v' : Value}

theorem eq_of_series? {s : Series} (h : v.series? = some s) : v = .series s := by
  cases v with
  | series _ =>
      cases h
      rfl
  | _ => cases h

theorem Related.eq_or_series (h : Related S v v') :
    v = v' ∨ ∃ s s', v = .series s ∧ v' = .series s' := by
  cases h with
  | scalar _ => exact .inl rfl
  | @series s s' _ => exact .inr ⟨s, s', rfl, rfl⟩

theorem Related.number? (h : Related S v v') : v.number? = v'.number? := by
  rcases h.eq_or_series with rfl | ⟨s, s', rfl, rfl⟩ <;> rfl

theorem Related.isNil (h : Related S v v') : v.isNil = v'.isNil := by
  rcases h.eq_or_series with rfl | ⟨s, s', rfl, rfl⟩ <;> rfl

end Value

/-- Entries of the same keys in the same order are found together. -/
theorem Sorted.get?_forall₂ {κ α β : Type} [DecidableEq κ] {R : α → β → Prop} {ps : List (κ × α)}
    {qs : List (κ × β)} (h : List.Forall₂ (fun p q => p.1 = q.1 ∧ R p.2 q.2) ps qs) (key : κ) :
    (get? key ps = none ∧ get? key qs = none) ∨
      ∃ a b, get? key ps = some a ∧ get? key qs = some b ∧ R a b := by
  induction h with
  | nil => exact .inl ⟨rfl, rfl⟩
  | @cons p q ps qs hpq _ ih =>
      obtain ⟨other, a⟩ := p
      obtain ⟨_, b⟩ := q
      obtain ⟨rfl, related⟩ := hpq
      rw [get?_cons, get?_cons]
      split
      · exact .inr ⟨a, b, rfl, rfl, related⟩
      · exact ih

/-- Keywords of the same names with related values. -/
def KeywordsRelated (S : Series → Series → Prop) (ks ks' : List (String × Value)) : Prop :=
  List.Forall₂ (fun p p' => p.1 = p'.1 ∧ Value.Related S p.2 p'.2) ks ks'

namespace KeywordsRelated

variable {ks ks' : List (String × Value)}

theorem get? (h : KeywordsRelated S ks ks') (name : String) :
    (Sorted.get? name ks = none ∧ Sorted.get? name ks' = none) ∨
      ∃ v v', Sorted.get? name ks = some v ∧ Sorted.get? name ks' = some v' ∧ Value.Related S v v' :=
  Sorted.get?_forall₂ h name

theorem put (h : KeywordsRelated S ks ks') (name : String) {v v' : Value}
    (hv : Value.Related S v v') : KeywordsRelated S (Sorted.put name v ks) (Sorted.put name v' ks') := by
  induction h with
  | nil => exact .cons ⟨rfl, hv⟩ .nil
  | @cons p p' ks ks' hp hrest ih =>
      obtain ⟨key, u⟩ := p
      obtain ⟨_, u'⟩ := p'
      obtain ⟨rfl, related⟩ := hp
      simp only [Sorted.put]
      split
      · exact .cons ⟨rfl, hv⟩ (.cons ⟨rfl, related⟩ hrest)
      · split
        · exact .cons ⟨rfl, hv⟩ hrest
        · exact .cons ⟨rfl, related⟩ ih

theorem erase (h : KeywordsRelated S ks ks') (name : String) :
    KeywordsRelated S (Sorted.erase name ks) (Sorted.erase name ks') := by
  induction h with
  | nil => exact .nil
  | @cons p p' ks ks' hp _ ih =>
      obtain ⟨key, u⟩ := p
      obtain ⟨_, u'⟩ := p'
      obtain ⟨rfl, related⟩ := hp
      simp only [Sorted.erase, List.filter_cons]
      split
      · exact .cons ⟨rfl, related⟩ ih
      · exact ih

end KeywordsRelated

namespace ParamType

theorem coerce?_scalar {type : ParamType} {v w : Value} (h : type.coerce? v = some w)
    (scalar : v.series? = none) : w.series? = none := by
  unfold coerce? at h
  split at h
  all_goals try simp only [Option.some.injEq, reduceCtorEq] at h
  all_goals try (subst h; first | rfl | exact scalar)
  · obtain ⟨t, -, rfl⟩ := Option.map_eq_some_iff.1 h
    rfl
  · split at h
    · cases h
      rfl
    · cases h

theorem coerce?_series {type : ParamType} {s : Series} {w : Value}
    (h : type.coerce? (.series s) = some w) : w = .series s := by
  cases type <;> simp only [coerce?, Option.some.injEq, reduceCtorEq] at h <;> exact h.symm

/-- Whether a series is accepted does not depend on its points. -/
theorem coerce?_related {type : ParamType} {v v' w w' : Value} (h : Value.Related S v v')
    (hw : type.coerce? v = some w) (hw' : type.coerce? v' = some w') : Value.Related S w w' := by
  cases h with
  | scalar scalar =>
      rw [hw] at hw'
      cases hw'
      exact .scalar (coerce?_scalar hw scalar)
  | series h =>
      rw [coerce?_series hw, coerce?_series hw']
      exact .series h

end ParamType

namespace Signature

/-- No parameter stands for a series when it is not given. -/
def ScalarDefaults (s : Signature) : Prop :=
  ∀ p ∈ s.positional ++ s.rest.toList ++ s.keywords, p.missing.series? = none

instance (s : Signature) : Decidable s.ScalarDefaults :=
  inferInstanceAs (Decidable (∀ p ∈ _, _))

variable {op op' : String} {path path' : Path}

theorem checkValue_related {p : Param} {v v' w w' : Value} (h : Value.Related S v v')
    (hw : checkValue op path p v = .ok w) (hw' : checkValue op' path' p v' = .ok w') :
    Value.Related S w w' := by
  unfold checkValue at hw hw'
  rw [← h.isNil] at hw'
  split at hw
  · rename_i absent
    rw [if_pos absent] at hw'
    cases hw
    cases hw'
    exact h
  · rename_i present
    rw [if_neg present] at hw'
    split at hw
    · rename_i found
      cases hw
      split at hw'
      · rename_i found'
        cases hw'
        exact ParamType.coerce?_related h found found'
      · cases hw'
    · cases hw

theorem mapM_checkValue_related {p : Param} {vs vs' ws ws' : List Value}
    (h : List.Forall₂ (Value.Related S) vs vs') (hw : vs.mapM (checkValue op path p) = .ok ws)
    (hw' : vs'.mapM (checkValue op' path' p) = .ok ws') : List.Forall₂ (Value.Related S) ws ws' := by
  rw [mapM_ok_iff] at hw hw'
  induction h generalizing ws ws' with
  | nil =>
      cases hw
      cases hw'
      exact .nil
  | cons hv _ ih =>
      obtain _ | ⟨first, others⟩ := hw
      obtain _ | ⟨first', others'⟩ := hw'
      exact .cons (checkValue_related hv first first') (ih others others')

theorem bindPositional_related {rest : Option Param} {ps : List Param}
    (defaults : ∀ p ∈ ps, p.missing.series? = none) {vs vs' ws ws' : List Value}
    (h : List.Forall₂ (Value.Related S) vs vs') (hw : bindPositional op path rest ps vs = .ok ws)
    (hw' : bindPositional op' path' rest ps vs' = .ok ws') : List.Forall₂ (Value.Related S) ws ws' := by
  induction ps generalizing vs vs' ws ws' with
  | nil =>
      unfold bindPositional at hw hw'
      cases rest with
      | none =>
          cases hw
          cases hw'
          exact .nil
      | some p => exact mapM_checkValue_related h hw hw'
  | cons p ps ih =>
      have others : ∀ q ∈ ps, q.missing.series? = none :=
        fun q hq => defaults q (List.mem_cons_of_mem _ hq)
      cases h with
      | nil =>
          obtain ⟨ws, later, hw⟩ := ok_of_bind hw
          obtain ⟨ws', later', hw'⟩ := ok_of_bind hw'
          cases hw
          cases hw'
          exact .cons (.scalar (defaults p List.mem_cons_self)) (ih others .nil later later')
      | cons hv hrest =>
          obtain ⟨w, first, hw⟩ := ok_of_bind hw
          obtain ⟨w', first', hw'⟩ := ok_of_bind hw'
          obtain ⟨ws, later, hw⟩ := ok_of_bind hw
          obtain ⟨ws', later', hw'⟩ := ok_of_bind hw'
          cases hw
          cases hw'
          exact .cons (checkValue_related hv first first') (ih others hrest later later')

theorem bindKeywords_related {ps : List Param} (defaults : ∀ p ∈ ps, p.missing.series? = none)
    {given given' bound bound' out out' : List (String × Value)}
    (hgiven : KeywordsRelated S given given') (hbound : KeywordsRelated S bound bound')
    (h : bindKeywords op path ps given bound = .ok out)
    (h' : bindKeywords op' path' ps given' bound' = .ok out') : KeywordsRelated S out out' := by
  induction ps generalizing given given' bound bound' with
  | nil =>
      cases h
      cases h'
      exact hbound
  | cons p ps ih =>
      have others : ∀ q ∈ ps, q.missing.series? = none :=
        fun q hq => defaults q (List.mem_cons_of_mem _ hq)
      rcases hgiven.get? p.name with ⟨absent, absent'⟩ | ⟨u, u', found, found', related⟩
      · simp only [bindKeywords, absent] at h
        simp only [bindKeywords, absent'] at h'
        have missing := Value.Related.scalar (S := S) (defaults p List.mem_cons_self)
        exact ih others (hgiven.erase p.name) (hbound.put p.name missing) h h'
      · simp only [bindKeywords, found] at h
        simp only [bindKeywords, found'] at h'
        obtain ⟨v, hv, h⟩ := ok_of_bind h
        obtain ⟨v', hv', h'⟩ := ok_of_bind h'
        have checked := checkValue_related related hv hv'
        exact ih others (hgiven.erase p.name) (hbound.put p.name checked) h h'

/-- Arguments are bound if their number and names pass, and then each to its parameter. -/
theorem bind_eq_ok_iff {s : Signature} {vs : List Value} {ks : List (String × Value)} {b : Bound} :
    s.bind op path vs ks = .ok b ↔
      s.checkShape op path vs.length (ks.map Prod.fst) = .ok () ∧
        bindPositional op path s.rest s.positional vs = .ok b.positional ∧
        bindKeywords op path s.keywords ks [] = .ok b.keywords := by
  constructor
  · intro h
    obtain ⟨_, shape, h⟩ := ok_of_bind h
    obtain ⟨ws, places, h⟩ := ok_of_bind h
    obtain ⟨out, names, h⟩ := ok_of_bind h
    cases h
    exact ⟨shape, places, names⟩
  · rintro ⟨shape, places, names⟩
    rw [bind, shape]
    show Except.bind (bindPositional op path s.rest s.positional vs) _ = _
    rw [places]
    show Except.bind (bindKeywords op path s.keywords ks []) _ = _
    rw [names]
    rfl

/-- Binding keeps arguments related. -/
theorem bind_related {s : Signature} (defaults : s.ScalarDefaults) {vs vs' : List Value}
    {ks ks' : List (String × Value)} {b b' : Bound} (hvs : List.Forall₂ (Value.Related S) vs vs')
    (hks : KeywordsRelated S ks ks') (h : s.bind op path vs ks = .ok b)
    (h' : s.bind op' path' vs' ks' = .ok b') :
    List.Forall₂ (Value.Related S) b.positional b'.positional ∧
      KeywordsRelated S b.keywords b'.keywords := by
  obtain ⟨-, positional, keywords⟩ := bind_eq_ok_iff.1 h
  obtain ⟨-, positional', keywords'⟩ := bind_eq_ok_iff.1 h'
  refine ⟨bindPositional_related (fun p hp => defaults p ?_) hvs positional positional',
    bindKeywords_related (fun p hp => defaults p ?_) hks .nil keywords keywords'⟩
  · exact List.mem_append.2 (.inl (List.mem_append.2 (.inl hp)))
  · exact List.mem_append.2 (.inr hp)

end Signature

/-- Arguments of one operator on two sides. -/
structure Arguments.Related (S : Series → Series → Prop) (a a' : Arguments) : Prop where
  positional : List.Forall₂ (Value.Related S) a.positional a'.positional
  keywords : KeywordsRelated S a.keywords a'.keywords

namespace Arguments

variable {a a' : Arguments}

theorem Related.positionalAt (h : Related S a a') (i : Nat) :
    Value.Related S (a.positionalAt i) (a'.positionalAt i) := by
  have lists : ∀ {vs vs' : List Value}, List.Forall₂ (Value.Related S) vs vs' → ∀ i,
      Value.Related S (vs.getD i .nil) (vs'.getD i .nil) := by
    intro vs vs' related
    induction related with
    | nil => exact fun _ => .scalar rfl
    | cons hv _ ih =>
        intro i
        cases i with
        | zero => exact hv
        | succ i => exact ih i
  exact lists h.positional i

theorem Related.keyword (h : Related S a a') (name : String) :
    Value.Related S (a.keyword name) (a'.keyword name) := by
  unfold Arguments.keyword
  rcases h.keywords.get? name with ⟨absent, absent'⟩ | ⟨v, v', found, found', related⟩
  · rw [absent, absent']
    exact .scalar rfl
  · rw [found, found']
    exact related

theorem numberAt_ok {i : Nat} {x : Float} (h : a.numberAt i = .ok x) :
    (a.positionalAt i).number? = some x := by
  unfold numberAt at h
  split at h
  · rename_i number
    cases h
    exact number
  · cases h

theorem textAt_ok {i : Nat} {text : String} (h : a.textAt i = .ok text) :
    a.positionalAt i = .str text := by
  unfold textAt at h
  split at h
  · rename_i found
    cases h
    exact found
  · cases h

theorem instantAt_ok {i : Nat} {t : Instant} (h : a.instantAt i = .ok t) :
    a.positionalAt i = .timestamp t := by
  unfold instantAt at h
  split at h
  · rename_i found
    cases h
    exact found
  · cases h

theorem seriesAt_ok {i : Nat} {s : Series} (h : a.seriesAt i = .ok s) :
    a.positionalAt i = .series s := by
  unfold seriesAt at h
  unfold positionalAt
  rw [List.getD_eq_getElem?_getD]
  split at h
  · rename_i found
    cases h
    rw [found]
    rfl
  · cases h
  · cases h

theorem Related.numberAt (h : Related S a a') {i : Nat} {x x' : Float} (hx : a.numberAt i = .ok x)
    (hx' : a'.numberAt i = .ok x') : x = x' := by
  have same := (h.positionalAt i).number?
  rw [numberAt_ok hx, numberAt_ok hx'] at same
  exact Option.some.inj same

theorem Related.textAt (h : Related S a a') {i : Nat} {text text' : String}
    (ht : a.textAt i = .ok text) (ht' : a'.textAt i = .ok text') : text = text' := by
  have related := h.positionalAt i
  rw [textAt_ok ht, textAt_ok ht'] at related
  cases related
  rfl

theorem Related.instantAt (h : Related S a a') {i : Nat} {t t' : Instant}
    (ht : a.instantAt i = .ok t) (ht' : a'.instantAt i = .ok t') : t = t' := by
  have related := h.positionalAt i
  rw [instantAt_ok ht, instantAt_ok ht'] at related
  cases related
  rfl

theorem Related.numberKeyword? (h : Related S a a') (name : String) :
    a.numberKeyword? name = a'.numberKeyword? name :=
  (h.keyword name).number?

theorem Related.intKeyword? (h : Related S a a') (name : String) :
    a.intKeyword? name = a'.intKeyword? name := by
  unfold Arguments.intKeyword?
  rcases (h.keyword name).eq_or_series with heq | ⟨s, s', heq, heq'⟩
  · rw [heq]
  · rw [heq, heq']

theorem Related.boolKeyword (h : Related S a a') (name : String) (default : Bool) :
    a.boolKeyword name default = a'.boolKeyword name default := by
  unfold Arguments.boolKeyword
  rcases (h.keyword name).eq_or_series with heq | ⟨s, s', heq, heq'⟩
  · rw [heq]
  · rw [heq, heq']

theorem Related.textKeyword? (h : Related S a a') (name : String) :
    a.textKeyword? name = a'.textKeyword? name := by
  unfold Arguments.textKeyword?
  rcases (h.keyword name).eq_or_series with heq | ⟨s, s', heq, heq'⟩
  · rw [heq]
  · rw [heq, heq']

theorem Related.instantKeyword? (h : Related S a a') (name : String) :
    a.instantKeyword? name = a'.instantKeyword? name := by
  unfold Arguments.instantKeyword?
  rcases (h.keyword name).eq_or_series with heq | ⟨s, s', heq, heq'⟩
  · rw [heq]
  · rw [heq, heq']

theorem Related.seriesAt (h : Related S a a') {i : Nat} {s s' : Series} (hs : a.seriesAt i = .ok s)
    (hs' : a'.seriesAt i = .ok s') : S s s' := by
  have related := h.positionalAt i
  rw [seriesAt_ok hs, seriesAt_ok hs'] at related
  cases related with
  | scalar scalar => cases scalar
  | series related => exact related

theorem Related.seriesFrom (h : Related S a a') {i : Nat} {ss ss' : List Series}
    (hs : a.seriesFrom i = .ok ss) (hs' : a'.seriesFrom i = .ok ss') : List.Forall₂ S ss ss' := by
  unfold Arguments.seriesFrom at hs hs'
  rw [← h.positional.length_eq] at hs'
  exact forall₂_of_common (mapM_ok_iff.1 hs) (mapM_ok_iff.1 hs')
    fun _ _ _ _ found found' => h.seriesAt found found'

end Arguments

end SeriesLang
