import Mathlib.Data.List.TakeWhile
import SeriesLang.Proofs.Operator.Faults
import SeriesLang.Proofs.Operator.Typing

/-! # Binding arguments

What arguments a signature takes and what they are bound to. Every argument is bound in its place or under its
name, and what is left out holds its default; a parameter without one has to be given as long as it stands in
front of those that have one.
-/

namespace SeriesLang

namespace Param

/-- What a given value is bound as: nil, if the parameter may be left out, or a value of its type. -/
def Takes (p : Param) (given bound : Value) : Prop :=
  (p.default ≠ none ∧ given = .nil ∧ bound = .nil) ∨ p.type.coerce? given = some bound

/-- What a parameter is bound to: its default, or what is given for it. -/
def Holds (p : Param) : Option Value → Value → Prop
  | none, bound => bound = p.missing
  | some given, bound => p.Takes given bound

end Param

namespace Signature

variable {s : Signature} {op : String} {path : Path} {p : Param} {v w : Value}

/-- Positional values are bound to their places: each given one to its parameter or the tail, and each
    parameter behind them to its default. -/
structure Places (ps : List Param) (rest : Option Param) (given bound : List Value) : Prop where
  length : bound.length = max ps.length given.length
  holds : ∀ (i : Nat) p, ps[i]?.or rest = some p → ∀ w, bound[i]? = some w → p.Holds given[i]? w

/-- Keywords are bound by their names, each parameter once. -/
structure Names (ps : List Param) (given bound : List (String × Value)) : Prop where
  ascending : Sorted.Ascending bound
  names : ∀ name, name ∈ bound.map Prod.fst ↔ name ∈ ps.map Param.name
  holds : ∀ p ∈ ps, ∀ w, Sorted.get? p.name bound = some w → p.Holds (Sorted.get? p.name given) w

/-- Arguments are bound by a signature: there is a parameter for each of them, and each parameter holds what
    is given for it or its default. -/
structure Fits (s : Signature) (given : List Value) (named : List (String × Value)) (b : Bound) : Prop where
  room : s.rest = none → given.length ≤ s.positional.length
  known : ∀ name ∈ named.map Prod.fst, name ∈ s.keywords.map Param.name
  places : Places s.positional s.rest given b.positional
  names : Names s.keywords named b.keywords

/-- Every parameter without a default is given, and as many values for the tail as it takes at least. -/
structure Complete (s : Signature) (given : List Value) (named : List (String × Value)) : Prop where
  positional : ∀ (i : Nat) p, s.positional[i]? = some p → p.default = none → i < given.length
  tail : s.minRest ≤ (given.drop s.positional.length).length
  keywords : ∀ p ∈ s.keywords, p.default = none → p.name ∈ named.map Prod.fst

/-- The parameters without a default come first, no tail has a least number behind others, and keywords may be
    left out. -/
structure Orderly (s : Signature) : Prop where
  leading : s.positional.Pairwise (fun p q => q.default = none → p.default = none)
  tail : s.minRest = 0 ∨ ∀ p ∈ s.positional, p.default = none
  keywords : ∀ p ∈ s.keywords, p.default ≠ none

/-! ### Single values -/

theorem checkValue_ok_iff : checkValue op path p v = .ok w ↔ p.Takes v w := by
  unfold checkValue Param.Takes
  cases default : p.default with
  | none =>
      rw [Option.isSome_none, Bool.and_false, if_neg Bool.false_ne_true]
      cases p.type.coerce? v <;> simp
  | some d =>
      cases v with
      | nil =>
          have left : (Value.nil.isNil && (some d).isSome) = true := rfl
          rw [if_pos left]
          cases p.type <;> simp [ParamType.coerce?, eq_comm]
      | _ =>
          rw [if_neg (by simp [Value.isNil])]
          split <;> simp [*]

theorem checkValue_error {err : Error} (h : checkValue op path p v = .error err) :
    err = .typeMismatch op path p.name p.type.describe v.typeName ∧ ∀ w, ¬p.Takes v w := by
  refine ⟨?_, fun w takes => ?_⟩
  · unfold checkValue at h
    split at h
    · cases h
    · split at h
      · cases h
      · exact (Except.error.inj h).symm
  · cases h.symm.trans (checkValue_ok_iff.2 takes)

theorem takes_unique {w' : Value} (h : p.Takes v w) (h' : p.Takes v w') : w = w' := by
  have passed : checkValue "" .root p v = .ok w := checkValue_ok_iff.2 h
  exact Except.ok.inj (passed.symm.trans (checkValue_ok_iff.2 h'))

/-! ### Places -/

variable {ps : List Param} {rest : Option Param} {vs ws : List Value}

theorem places_cons : Places (p :: ps) rest vs ws ↔
    ∃ w ws', ws = w :: ws' ∧ p.Holds vs.head? w ∧ Places ps rest vs.tail ws' := by
  constructor
  · rintro ⟨length, holds⟩
    cases ws with
    | nil =>
        simp only [List.length_nil, List.length_cons] at length
        omega
    | cons w ws =>
        refine ⟨w, ws, rfl, ?_, ?_, fun i q hq w hw => ?_⟩
        · rw [List.head?_eq_getElem?]
          exact holds 0 p rfl w rfl
        · rw [List.length_tail]
          simp only [List.length_cons] at length
          omega
        · rw [List.getElem?_tail]
          exact holds (i + 1) q hq w hw
  · rintro ⟨w, ws, rfl, first, length, holds⟩
    refine ⟨?_, fun i q hq u hu => ?_⟩
    · rw [List.length_tail] at length
      simp only [List.length_cons]
      omega
    · cases i with
      | zero =>
          cases hq
          cases hu
          rwa [← List.head?_eq_getElem?]
      | succ i =>
          rw [← List.getElem?_tail]
          exact holds i q hq u hu

theorem places_nil_some : Places [] (some p) vs ws ↔ List.Forall₂ p.Takes vs ws := by
  rw [List.forall₂_iff_get]
  constructor
  · rintro ⟨length, holds⟩
    simp only [List.length_nil, Nat.zero_max] at length
    refine ⟨length.symm, fun i hi hi' => ?_⟩
    have held := holds i p rfl ws[i] (List.getElem?_eq_getElem hi')
    rwa [List.getElem?_eq_getElem hi] at held
  · rintro ⟨length, takes⟩
    refine ⟨by simp [length], fun i q hq w hw => ?_⟩
    cases hq
    obtain ⟨hi, rfl⟩ := List.getElem?_eq_some_iff.1 hw
    rw [List.getElem?_eq_getElem (length ▸ hi)]
    exact takes i (length ▸ hi) hi

theorem places_nil_none : Places [] none [] ws ↔ ws = [] := by
  constructor
  · rintro ⟨length, -⟩
    simpa using length
  · rintro rfl
    exact ⟨rfl, by simp⟩

/-- Positional values are bound to their places exactly when each passes for its parameter. -/
theorem bindPositional_ok_iff (room : rest = none → vs.length ≤ ps.length) :
    bindPositional op path rest ps vs = .ok ws ↔ Places ps rest vs ws := by
  induction ps generalizing vs ws with
  | nil =>
      cases rest with
      | none =>
          obtain rfl : vs = [] := by simpa using room
          rw [places_nil_none, bindPositional]
          exact ⟨fun h => (Except.ok.inj h).symm, fun h => h ▸ rfl⟩
      | some p =>
          rw [places_nil_some, bindPositional, mapM_ok_iff]
          simp only [checkValue_ok_iff]
  | cons p ps ih =>
      rw [places_cons]
      cases vs with
      | nil =>
          simp only [bindPositional]
          constructor
          · intro h
            obtain ⟨ws', others, h⟩ := ok_of_bind h
            cases h
            exact ⟨_, ws', rfl, rfl, (ih (by simp)).1 others⟩
          · rintro ⟨w, ws', rfl, rfl, others⟩
            rw [List.tail_nil] at others
            rw [(ih (by simp)).2 others]
            rfl
      | cons v vs =>
          have fewer : rest = none → vs.length ≤ ps.length := fun none => Nat.le_of_succ_le_succ (room none)
          simp only [bindPositional]
          constructor
          · intro h
            obtain ⟨w, first, h⟩ := ok_of_bind h
            obtain ⟨ws', others, h⟩ := ok_of_bind h
            cases h
            exact ⟨w, ws', rfl, checkValue_ok_iff.1 first, (ih fewer).1 others⟩
          · rintro ⟨w, ws', rfl, first, others⟩
            rw [checkValue_ok_iff.2 first, (ih fewer).2 others]
            rfl

/-! ### Keywords -/

variable {given bound out : List (String × Value)}

theorem bindKeywords_cons_ok_iff : bindKeywords op path (p :: ps) given bound = .ok out ↔
    ∃ w, p.Holds (Sorted.get? p.name given) w ∧
      bindKeywords op path ps (Sorted.erase p.name given) (Sorted.put p.name w bound) = .ok out := by
  simp only [bindKeywords]
  cases Sorted.get? p.name given with
  | none =>
      refine ⟨fun h => ⟨_, rfl, h⟩, ?_⟩
      rintro ⟨w, rfl, h⟩
      exact h
  | some v =>
      constructor
      · intro h
        obtain ⟨w, first, h⟩ := ok_of_bind h
        exact ⟨w, checkValue_ok_iff.1 first, h⟩
      · rintro ⟨w, first, h⟩
        simp only [checkValue_ok_iff.2 first]
        exact h

theorem names_of_bindKeywords (h : bindKeywords op path ps given bound = .ok out)
    (ascending : Sorted.Ascending bound) : Sorted.Ascending out ∧
      ∀ name, name ∈ out.map Prod.fst ↔ name ∈ ps.map Param.name ∨ name ∈ bound.map Prod.fst := by
  induction ps generalizing given bound with
  | nil =>
      cases h
      exact ⟨ascending, by simp⟩
  | cons p ps ih =>
      obtain ⟨w, -, h⟩ := bindKeywords_cons_ok_iff.1 h
      obtain ⟨kept, names⟩ := ih h (ascending.put _ _)
      refine ⟨kept, fun name => ?_⟩
      have put : name ∈ (Sorted.put p.name w bound).map Prod.fst ↔
          p.name = name ∨ name ∈ bound.map Prod.fst := by
        rw [← Sorted.contains_iff_mem, Sorted.contains_put, Bool.or_eq_true, decide_eq_true_eq,
          Sorted.contains_iff_mem]
      rw [names, put, List.map_cons, List.mem_cons, eq_comm (a := p.name), or_left_comm, or_assoc]

theorem bindKeywords_ok_of_holds (distinct : (ps.map Param.name).Nodup)
    (holds : ∀ p ∈ ps, ∃ w, p.Holds (Sorted.get? p.name given) w) :
    ∃ out, bindKeywords op path ps given bound = .ok out := by
  induction ps generalizing given bound with
  | nil => exact ⟨bound, rfl⟩
  | cons p ps ih =>
      rw [List.map_cons, List.nodup_cons] at distinct
      obtain ⟨w, held⟩ := holds p List.mem_cons_self
      have others : ∀ q ∈ ps, ∃ w, q.Holds (Sorted.get? q.name (Sorted.erase p.name given)) w := by
        intro q hq
        have apart : q.name ≠ p.name := fun same => distinct.1 (same ▸ List.mem_map_of_mem hq)
        rw [Sorted.get?_erase, if_neg apart]
        exact holds q (List.mem_cons_of_mem _ hq)
      obtain ⟨out, made⟩ := ih distinct.2 others
      exact ⟨out, bindKeywords_cons_ok_iff.2 ⟨w, held, made⟩⟩

/-- Each keyword holds one value. -/
theorem Names.get? (h : Names ps given out) (hp : p ∈ ps) :
    ∃ w, Sorted.get? p.name out = some w ∧ p.Holds (Sorted.get? p.name given) w := by
  obtain ⟨q, hq, same⟩ := List.mem_map.1 ((h.names p.name).2 (List.mem_map_of_mem hp))
  have found := Sorted.get?_of_mem h.ascending hq
  rw [same] at found
  exact ⟨q.2, found, h.holds p hp q.2 found⟩

theorem holds_unique {given : Option Value} {w' : Value} (h : p.Holds given w) (h' : p.Holds given w') :
    w = w' := by
  cases given with
  | none => exact Eq.trans h h'.symm
  | some v => exact takes_unique h h'

theorem Names.unique {out' : List (String × Value)} (h : Names ps given out) (h' : Names ps given out') :
    out = out' := by
  refine h.ascending.ext h'.ascending fun name => ?_
  by_cases mem : name ∈ ps.map Param.name
  · obtain ⟨p, hp, rfl⟩ := List.mem_map.1 mem
    obtain ⟨w, found, held⟩ := h.get? hp
    obtain ⟨w', found', held'⟩ := h'.get? hp
    rw [found, found', holds_unique held held']
  · have absent : ∀ {out}, Names ps given out → Sorted.get? name out = none := by
      intro out h
      refine Sorted.get?_eq_none_iff.2 fun q hq same => mem ((h.names name).1 ?_)
      exact same ▸ List.mem_map_of_mem hq
    rw [absent h, absent h']

/-- Keywords are bound by their names exactly when each value passes for its parameter. -/
theorem bindKeywords_ok_iff (distinct : (ps.map Param.name).Nodup) :
    bindKeywords op path ps given [] = .ok out ↔ Names ps given out := by
  have bound : ∀ {out}, bindKeywords op path ps given [] = .ok out → Names ps given out := by
    intro out h
    obtain ⟨ascending, names⟩ := names_of_bindKeywords h .nil
    refine ⟨ascending, by simpa using names, fun p hp w hw => ?_⟩
    rcases get?_bindKeywords distinct h hp with ⟨absent, found⟩ | ⟨v, u, given, checked, found⟩
    · rw [absent]
      exact Option.some.inj (hw.symm.trans found)
    · rw [given, Option.some.inj (hw.symm.trans found)]
      exact checkValue_ok_iff.1 checked
  refine ⟨bound, fun h => ?_⟩
  obtain ⟨out', made⟩ : ∃ out', bindKeywords op path ps given [] = .ok out' :=
    bindKeywords_ok_of_holds distinct fun p hp => (h.get? hp).imp fun _ => And.right
  rw [made, (bound made).unique h]

/-! ### Whole bindings -/

theorem checkShape_ok_iff {count : Nat} {names : List String} :
    s.checkShape op path count names = .ok () ↔ s.requiredCount ≤ count ∧
      (s.rest = none → count ≤ s.positional.length) ∧ ∀ name ∈ names, name ∈ s.keywords.map Param.name := by
  constructor
  · intro h
    obtain ⟨enough, -⟩ := ok_of_else h
    obtain ⟨room, known⟩ := checkShape_ok h
    refine ⟨Nat.le_of_not_lt enough, fun none => room.resolve_right (by simp [none]), fun name hname => ?_⟩
    obtain ⟨p, hp, rfl⟩ := known name hname
    exact List.mem_map_of_mem hp
  · rintro ⟨enough, room, known⟩
    have few : ¬(s.rest.isNone && decide (s.positional.length < count)) = true := by
      simpa [Nat.not_lt] using room
    have found : names.find? (fun name => !s.keywords.any (fun p => p.name == name)) = none := by
      refine List.find?_eq_none.2 fun name hname => ?_
      simpa using known name hname
    rw [checkShape, if_neg (Nat.not_lt.2 enough), if_neg few, found]

theorem bind_ok_iff (distinct : (s.keywords.map Param.name).Nodup) {vs : List Value}
    {named : List (String × Value)} {b : Bound} :
    s.bind op path vs named = .ok b ↔ s.requiredCount ≤ vs.length ∧ s.Fits vs named b := by
  rw [bind_eq_ok_iff, checkShape_ok_iff, bindKeywords_ok_iff distinct]
  constructor
  · rintro ⟨⟨enough, room, known⟩, places, names⟩
    exact ⟨enough, room, known, (bindPositional_ok_iff room).1 places, names⟩
  · rintro ⟨enough, room, known, places, names⟩
    exact ⟨⟨enough, room, known⟩, (bindPositional_ok_iff room).2 places, names⟩

/-! ### Failures -/

/-- A given value does not pass for a parameter, which the error names with both types. -/
def Refuses (op : String) (path : Path) (ps : List Param) (vs : List Value) (err : Error) : Prop :=
  ∃ p ∈ ps, ∃ v ∈ vs, (∀ w, ¬p.Takes v w) ∧
    err = .typeMismatch op path p.name p.type.describe v.typeName

theorem Refuses.mono {err : Error} {ps' : List Param} {vs' : List Value} (h : Refuses op path ps vs err)
    (params : ps ⊆ ps') (values : vs ⊆ vs') : Refuses op path ps' vs' err := by
  obtain ⟨p, hp, v, hv, refused⟩ := h
  exact ⟨p, params hp, v, values hv, refused⟩

theorem refuses_of_checkValue {err : Error} (h : checkValue op path p v = .error err) :
    Refuses op path [p] [v] err :=
  ⟨p, List.mem_singleton_self p, v, List.mem_singleton_self v, (checkValue_error h).2, (checkValue_error h).1⟩

theorem bindPositional_error {err : Error} (h : bindPositional op path rest ps vs = .error err) :
    Refuses op path (ps ++ rest.toList) vs err := by
  induction ps generalizing vs with
  | nil =>
      cases rest with
      | none => cases h
      | some p =>
          obtain ⟨v, hv, failed⟩ := error_of_mapM h
          exact (refuses_of_checkValue failed).mono (by simp) (by simpa using hv)
  | cons p ps ih =>
      cases vs with
      | nil =>
          rcases error_of_bind h with others | ⟨_, -, last⟩
          · exact (ih others).mono (by simp) (by simp)
          · cases last
      | cons v vs =>
          rcases error_of_bind h with first | ⟨w, -, h⟩
          · exact (refuses_of_checkValue first).mono (by simp) (by simp)
          · rcases error_of_bind h with others | ⟨_, -, last⟩
            · exact (ih others).mono (by simp) (by simp)
            · cases last

theorem bindKeywords_error {err : Error} (h : bindKeywords op path ps given bound = .error err) :
    Refuses op path ps (given.map Prod.snd) err := by
  induction ps generalizing given bound with
  | nil => cases h
  | cons p ps ih =>
      have later : ∀ {w}, bindKeywords op path ps (Sorted.erase p.name given) (Sorted.put p.name w bound) =
          .error err → Refuses op path (p :: ps) (given.map Prod.snd) err :=
        fun h => (ih h).mono (by simp) (List.map_subset _ (List.filter_subset_self _))
      simp only [bindKeywords] at h
      split at h
      · rename_i v found
        rcases error_of_bind h with first | ⟨w, -, h⟩
        · have mem : v ∈ given.map Prod.snd := List.mem_map_of_mem (Sorted.mem_of_get? found)
          exact (refuses_of_checkValue first).mono (by simp) (by simpa using mem)
        · exact later h
      · exact later h

theorem checkShape_error {count : Nat} {names : List String} {err : Error}
    (h : s.checkShape op path count names = .error err) : ∃ message, err = .arityMismatch op path message := by
  simp only [checkShape] at h
  split at h
  · exact ⟨_, (Except.error.inj h).symm⟩
  · split at h
    · exact ⟨_, (Except.error.inj h).symm⟩
    · split at h
      · exact ⟨_, (Except.error.inj h).symm⟩
      · cases h

theorem bind_error {vs : List Value} {named : List (String × Value)} {err : Error}
    (h : s.bind op path vs named = .error err) : (∃ message, err = .arityMismatch op path message) ∨
      Refuses op path (s.positional ++ s.rest.toList ++ s.keywords) (vs ++ named.map Prod.snd) err := by
  rcases error_of_bind h with shape | ⟨_, -, h⟩
  · exact .inl (checkShape_error shape)
  · rcases error_of_bind h with places | ⟨_, -, h⟩
    · exact .inr ((bindPositional_error places).mono (List.subset_append_left _ _) (List.subset_append_left _ _))
    · rcases error_of_bind h with names | ⟨_, -, last⟩
      · exact .inr ((bindKeywords_error names).mono (List.subset_append_right _ _) (List.subset_append_right _ _))
      · cases last

/-! ### Signatures in order -/

/-- Where the parameters without a default come first, as many arguments as these give all of them. -/
theorem length_takeWhile_le_iff (leading : ps.Pairwise (fun p q => q.default = none → p.default = none))
    (count : Nat) : (ps.takeWhile (fun p => p.default.isNone)).length ≤ count ↔
      ∀ (i : Nat) p, ps[i]? = some p → p.default = none → i < count := by
  induction ps generalizing count with
  | nil => simp
  | cons p ps ih =>
      obtain ⟨first, leading⟩ := List.pairwise_cons.1 leading
      cases default : p.default with
      | none =>
          rw [List.takeWhile_cons_of_pos (by simp [default]), List.length_cons]
          constructor
          · intro enough i q hq required
            cases i with
            | zero => omega
            | succ i =>
                have fewer := (ih leading (count - 1)).1 (by omega) i q hq required
                omega
          · intro given
            have some := given 0 p rfl default
            have fewer := (ih leading (count - 1)).2 fun i q hq required => by
              have later := given (i + 1) q hq required
              omega
            omega
      | some d =>
          rw [List.takeWhile_cons_of_neg (by simp [default])]
          refine iff_of_true (Nat.zero_le _) fun i q hq required => ?_
          cases i with
          | zero =>
              cases hq
              cases default.symm.trans required
          | succ i => cases default.symm.trans (first q (List.mem_of_getElem? hq) required)

theorem Orderly.requiredCount_le_iff (h : s.Orderly) {vs : List Value} {named : List (String × Value)} :
    s.requiredCount ≤ vs.length ↔ s.Complete vs named := by
  have leads := length_takeWhile_le_iff h.leading vs.length
  have keywords : ∀ p ∈ s.keywords, p.default = none → p.name ∈ named.map Prod.fst :=
    fun p hp required => absurd required (h.keywords p hp)
  have tail : (vs.drop s.positional.length).length = vs.length - s.positional.length := List.length_drop
  simp only [requiredCount]
  split
  · rename_i all
    constructor
    · intro enough
      exact ⟨leads.1 (by omega), by omega, keywords⟩
    · rintro ⟨positional, enough, -⟩
      have given := leads.2 positional
      omega
  · rename_i some
    have least : s.minRest = 0 := by
      refine h.tail.resolve_right fun required => some (congrArg List.length ?_)
      exact List.takeWhile_eq_self_iff.2 fun p hp => by simp [required p hp]
    exact ⟨fun enough => ⟨leads.1 enough, by omega, keywords⟩, fun complete => leads.2 complete.positional⟩

/-- The signatures of the built-in operators are in order, and their keywords have different names. -/
theorem builtin_orderly : ∀ o ∈ Operator.builtins,
    o.signature.Orderly ∧ (o.signature.keywords.map Param.name).Nodup := by
  have leading : ∀ o ∈ Operator.builtins,
      o.signature.positional.Pairwise (fun p q => q.default = none → p.default = none) := by
    decide +kernel
  have tail : ∀ o ∈ Operator.builtins,
      o.signature.minRest = 0 ∨ ∀ p ∈ o.signature.positional, p.default = none := by
    decide +kernel
  have keywords : ∀ o ∈ Operator.builtins, ∀ p ∈ o.signature.keywords, p.default ≠ none := by
    decide +kernel
  have distinct : ∀ o ∈ Operator.builtins, (o.signature.keywords.map Param.name).Nodup := by
    decide +kernel
  exact fun o known => ⟨⟨leading o known, tail o known, keywords o known⟩, distinct o known⟩

/-- Arguments that are bound fit: each given value is bound in its place or under its name, nil or a value of
    the type of its parameter, and what is left out holds its default. In a signature that is in order nothing
    without a default is left out and the tail has its least length, and all arguments of which that holds are
    bound. Whatever is not bound fails over the shape of the arguments or over a value that a parameter
    refuses. -/
theorem binds_exactly (distinct : (s.keywords.map Param.name).Nodup) (op : String) (path : Path)
    (vs : List Value) (named : List (String × Value)) :
    (∀ b, s.bind op path vs named = .ok b ↔ s.requiredCount ≤ vs.length ∧ s.Fits vs named b) ∧
    (s.Orderly → ∀ b, s.bind op path vs named = .ok b ↔ s.Complete vs named ∧ s.Fits vs named b) ∧
    ∀ err, s.bind op path vs named = .error err → (∃ message, err = .arityMismatch op path message) ∨
      Refuses op path (s.positional ++ s.rest.toList ++ s.keywords) (vs ++ named.map Prod.snd) err := by
  refine ⟨fun b => bind_ok_iff distinct, fun orderly b => ?_, fun err => bind_error⟩
  rw [bind_ok_iff distinct, orderly.requiredCount_le_iff]

theorem binds_exactly_weighted :
    let s := Operator.rowMean.signature
    let vs := [Value.series .empty, Value.series .empty]
    ((s.keywords.map Param.name).Nodup ∧ s.Orderly) ∧
      s.Complete vs [] ∧ s.Fits vs [] ⟨vs, [("skipna", .bool true)]⟩ := by
  intro s vs
  obtain ⟨orderly, distinct⟩ := builtin_orderly Operator.rowMean (by simp [Operator.builtins])
  have bound : s.bind "row-mean" ⟨"row-mean"⟩ vs [] = .ok ⟨vs, [("skipna", .bool true)]⟩ := rfl
  exact ⟨⟨distinct, orderly⟩, ((binds_exactly distinct _ _ _ _).2.1 orderly _).1 bound⟩

/-- A keyword without a default, a parameter without one behind one that has it, and the least length of a tail
    behind such a parameter are not asked for; of two keywords of one name the second takes the value of the
    first away. -/
theorem not_complete :
    (let s : Signature := { keywords := [⟨"k", .int, none⟩] }
     s.bind "f" ⟨"f"⟩ [] [] = .ok ⟨[], [("k", .nil)]⟩ ∧ ¬s.Complete [] []) ∧
    (let s : Signature := { positional := [⟨"a", .int, some (.int 1)⟩, ⟨"b", .int, none⟩] }
     s.bind "f" ⟨"f"⟩ [] [] = .ok ⟨[.int 1, .nil], []⟩ ∧ ¬s.Complete [] []) ∧
    (let s : Signature :=
      { positional := [.optional "a" .int], rest := some ⟨"x", .any, none⟩, minRest := 2 }
     s.bind "f" ⟨"f"⟩ [] [] = .ok ⟨[.nil], []⟩ ∧ ¬s.Complete [] []) ∧
    (let s : Signature := { keywords := [.optional "k" .int, .optional "k" .int] }
     s.bind "f" ⟨"f"⟩ [] [("k", .int 1)] = .ok ⟨[], [("k", .nil)]⟩ ∧
       ¬s.Fits [] [("k", .int 1)] ⟨[], [("k", .nil)]⟩) := by
  refine ⟨⟨rfl, fun h => ?_⟩, ⟨rfl, fun h => ?_⟩, ⟨rfl, fun h => ?_⟩, ⟨rfl, fun h => ?_⟩⟩
  · exact absurd (h.keywords _ List.mem_cons_self rfl) (by decide)
  · exact absurd (h.positional 1 _ rfl rfl) (by decide)
  · exact absurd h.tail (by decide)
  · have held := h.names.holds _ List.mem_cons_self _ rfl
    rcases held with ⟨-, given, -⟩ | coerced
    · cases given
    · cases coerced

end Signature

end SeriesLang
