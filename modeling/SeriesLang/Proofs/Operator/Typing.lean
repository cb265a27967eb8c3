import SeriesLang.Proofs.Query.Scalars

/-! # Scalars and series

Which arguments may be series can be told from the signature of an operator and from its value: a value that
is no series was made of none.
-/

namespace SeriesLang

/-- Is a series a value of the type? -/
def ParamType.takesSeries : ParamType → Bool
  | .any | .series | .numberOrSeries => true
  | _ => false

theorem ParamType.takesSeries_of_coerce? {type : ParamType} {s : Series} {w : Value}
    (h : type.coerce? (.series s) = some w) : type.takesSeries = true := by
  cases type <;> first | rfl | cases h

namespace Signature

variable {op : String} {path : Path} {sig : Signature} {b : Bound}

/-- The parameter that an argument is bound to by its place. -/
def param? (sig : Signature) (i : Nat) : Option Param :=
  sig.positional[i]?.or sig.rest

theorem checkValue_series {p : Param} {s : Series} {w : Value}
    (h : checkValue op path p (.series s) = .ok w) : p.type.takesSeries = true ∧ w = .series s := by
  have present : (Value.series s).isNil = false := rfl
  rw [checkValue, present, Bool.false_and, if_neg Bool.false_ne_true] at h
  split at h
  · rename_i coerced
    cases h
    exact ⟨ParamType.takesSeries_of_coerce? coerced, ParamType.coerce?_series coerced⟩
  · cases h

theorem checkShape_ok {given : Nat} {names : List String}
    (h : sig.checkShape op path given names = .ok ()) :
    (given ≤ sig.positional.length ∨ sig.rest.isSome = true) ∧
      ∀ name ∈ names, ∃ p ∈ sig.keywords, p.name = name := by
  unfold checkShape at h
  obtain ⟨-, h⟩ := ok_of_else h
  obtain ⟨room, h⟩ := ok_of_else h
  refine ⟨?_, fun name hname => ?_⟩
  · cases rest : sig.rest with
    | some p => exact .inr rfl
    | none => exact .inl (by simpa [rest] using room)
  · split at h
    · cases h
    · rename_i known
      simpa using List.find?_eq_none.1 known name hname

theorem bindPositional_given {rest : Option Param} {ps : List Param} {vs ws : List Value}
    (h : bindPositional op path rest ps vs = .ok ws)
    (room : vs.length ≤ ps.length ∨ rest.isSome = true) {i : Nat} {v : Value} (hv : vs[i]? = some v) :
    ∃ p w, ps[i]?.or rest = some p ∧ checkValue op path p v = .ok w ∧ ws[i]? = some w := by
  induction ps generalizing vs ws i with
  | nil =>
      cases rest with
      | none =>
          have none : vs = [] := by simpa using room
          rw [none] at hv
          cases hv
      | some p =>
          obtain ⟨w, checked, found⟩ := getElem?_of_mapM h hv
          exact ⟨p, w, rfl, checked, found⟩
  | cons p ps ih =>
      cases vs with
      | nil => cases hv
      | cons first vs =>
          obtain ⟨w, checked, h⟩ := ok_of_bind h
          obtain ⟨ws, others, h⟩ := ok_of_bind h
          cases h
          cases i with
          | zero =>
              cases hv
              exact ⟨p, w, rfl, checked, rfl⟩
          | succ i => exact ih others (room.imp_left Nat.le_of_succ_le_succ) hv

/-- Arguments that are bound are scalars if no keyword is a series, and none of the positional ones is
    bound as one. -/
theorem scalars_of_bind {vs : List Value} {ks : List (String × Value)}
    (h : sig.bind op path vs ks = .ok b) (ordered : Sorted.Ascending ks)
    (distinct : (sig.keywords.map Param.name).Nodup)
    (keywords : ∀ p ∈ sig.keywords, p.type.takesSeries = false)
    (positional : ∀ {i p s}, sig.param? i = some p → p.type.takesSeries = true →
      b.positional[i]? ≠ some (.series s)) :
    (∀ v ∈ vs, v.series? = none) ∧ ∀ k ∈ ks, k.2.series? = none := by
  obtain ⟨shape, places, names⟩ := bind_eq_ok_iff.1 h
  obtain ⟨room, known⟩ := checkShape_ok shape
  refine ⟨fun v hv => ?_, fun k hk => ?_⟩
  · obtain ⟨i, given⟩ := List.getElem?_of_mem hv
    obtain ⟨p, w, param, checked, found⟩ := bindPositional_given places room given
    cases v with
    | series s =>
        obtain ⟨takes, rfl⟩ := checkValue_series checked
        exact absurd found (positional param takes)
    | _ => rfl
  · obtain ⟨p, hp, name⟩ := known k.1 (List.mem_map_of_mem hk)
    have given := Sorted.get?_of_mem ordered hk
    rw [← name] at given
    rcases get?_bindKeywords distinct names hp with ⟨absent, -⟩ | ⟨v, w, found, checked, -⟩
    · cases given.symm.trans absent
    · cases given.symm.trans found
      cases hv : k.2 with
      | series s =>
          rw [hv] at checked
          exact absurd (checkValue_series checked).1 (by simp [keywords p hp])
      | _ => rfl

/-- No parameter takes a series. -/
def Scalar (sig : Signature) : Prop :=
  ∀ p ∈ sig.positional ++ sig.rest.toList, p.type.takesSeries = false

instance (sig : Signature) : Decidable sig.Scalar :=
  inferInstanceAs (Decidable (∀ p ∈ _, _))

theorem Scalar.param? (h : sig.Scalar) {i : Nat} {p : Param} (hp : sig.param? i = some p) :
    p.type.takesSeries = false := by
  refine h p (List.mem_append.2 ?_)
  rcases Option.or_eq_some_iff.1 hp with hp | ⟨-, hp⟩
  · exact .inl (List.mem_of_getElem? hp)
  · exact .inr (Option.mem_toList.2 hp)

end Signature

theorem Body.ofExcept_inj {α : Type} {r r' : Except Error α} (h : ofExcept r = ofExcept r') : r = r' := by
  cases r <;> cases r' <;> cases h <;> rfl

namespace Operator

/-- An operator on values of which no series was bound to an argument if it makes a value that is none. -/
structure Reveals (o : Operator) : Prop where
  unbound : ∀ run : Arguments → Except Error Value,
    o.implementation = .values (fun a => .ofExcept (run a)) →
    ∀ a v, run a = .ok v → v.series? = none → ∀ i p s, o.signature.param? i = some p →
      p.type.takesSeries = true → a.positional[i]? ≠ some (.series s)

theorem reveals_of {o : Operator} {run : Arguments → Except Error Value}
    (implementation : o.implementation = .values (fun a => .ofExcept (run a)))
    (h : ∀ a v, run a = .ok v → v.series? = none → ∀ i p s, o.signature.param? i = some p →
      p.type.takesSeries = true → a.positional[i]? ≠ some (.series s)) : o.Reveals where
  unbound := by
    intro run' same a v made
    have bodies := Implementation.values.inj (implementation.symm.trans same)
    exact h a v ((Body.ofExcept_inj (congrFun bodies a)).trans made)

/-- An operator that makes nothing but series. -/
theorem reveals_of_series {o : Operator} {run : Arguments → Except Error Value}
    (implementation : o.implementation = .values (fun a => .ofExcept (run a)))
    (series : ∀ a v, run a = .ok v → ∃ s, v = .series s) : o.Reveals := by
  refine reveals_of implementation fun a v made scalar => ?_
  obtain ⟨s, rfl⟩ := series a v made
  cases scalar

/-- An operator that takes no series. -/
theorem reveals_of_scalar {o : Operator} (h : o.signature.Scalar) : o.Reveals where
  unbound := by
    intro run _ a v _ _ i p s param takes
    rw [h.param? param] at takes
    cases takes

/-- An operator that receives its application unevaluated. -/
theorem reveals_of_tree {o : Operator} {run : Call → Context → Path → Body Value}
    (implementation : o.implementation = .tree run) : o.Reveals where
  unbound := fun _ same => nomatch implementation.symm.trans same

theorem series_of_bind {α : Type} {r : Except Error α} {f : α → Series} {v : Value}
    (h : (r.bind fun x => .ok (.series (f x))) = .ok v) : ∃ s, v = .series s := by
  obtain ⟨x, -, h⟩ := ok_of_bind h
  cases h
  exact ⟨f x, rfl⟩

theorem positionalAt_of_getElem? {a : Arguments} {i : Nat} {v : Value} (h : a.positional[i]? = some v) :
    a.positionalAt i = v := by
  rw [Arguments.positionalAt, List.getD_eq_getElem?_getD, h]
  rfl

theorem reveals_arithmetic (name symbol doc : String) (exact : Int → Int → Int)
    (rounded : Float → Float → Float) : (arithmetic name symbol doc exact rounded).Reveals := by
  refine reveals_of rfl fun a v made scalar i p s param takes given => ?_
  cases made
  match i with
  | 0 =>
      cases param
      cases takes
  | 1 =>
      rw [positionalAt_of_getElem? given] at scalar
      cases first : a.positionalAt 0 <;> rw [first] at scalar <;> cases scalar
  | i + 2 => cases param

/-- The first argument of an operator that maps it is bound to a scalar if the value is one. -/
theorem scalar_of_onValue {f : Float → Float} {a : Arguments}
    (scalar : (onValue f (a.positionalAt 0)).series? = none) (s : Series) :
    a.positional[0]? ≠ some (.series s) := by
  intro given
  rw [positionalAt_of_getElem? given] at scalar
  cases scalar

theorem reveals_divide : divide.Reveals := by
  refine reveals_of rfl fun a v made scalar i p s param takes => ?_
  obtain ⟨divisor, -, made⟩ := ok_of_bind made
  obtain ⟨-, made⟩ := ok_of_else made
  cases made
  match i with
  | 0 => exact scalar_of_onValue scalar s
  | 1 =>
      cases param
      cases takes
  | i + 2 => cases param

theorem reveals_power : power.Reveals := by
  refine reveals_of rfl fun a v made scalar i p s param takes => ?_
  obtain ⟨exponent, -, made⟩ := ok_of_bind made
  cases made
  match i with
  | 0 => exact scalar_of_onValue scalar s
  | 1 =>
      cases param
      cases takes
  | i + 2 => cases param

theorem isSome_of_mapM {α β : Type} {f : α → Option β} {as : List α} {bs : List β}
    (h : as.mapM f = some bs) : ∀ a ∈ as, (f a).isSome = true := by
  induction as generalizing bs with
  | nil => simp
  | cons a as ih =>
      rw [List.mapM_cons] at h
      obtain ⟨b, first, h⟩ := Option.bind_eq_some_iff.1 h
      obtain ⟨rest, others, -⟩ := Option.bind_eq_some_iff.1 h
      exact List.forall_mem_cons.2 ⟨by rw [first]; rfl, ih others⟩

/-- Only of numbers the extreme value is no series. -/
theorem reveals_extremum (name : String) (pick : Float → Float → Float) :
    (extremum name pick).Reveals := by
  refine reveals_of rfl fun a v made scalar i p s param takes given => ?_
  split at made
  · obtain ⟨s, rfl⟩ := series_of_bind made
    cases scalar
  · split at made
    · rename_i numbers
      exact absurd (isSome_of_mapM numbers _ (List.mem_of_getElem? given)) Bool.false_ne_true
    · cases made

theorem reveals_clip : clip.Reveals := by
  refine reveals_of_series rfl fun a v made => ?_
  obtain ⟨s, -, rfl⟩ := clipSeries_ok made
  exact ⟨_, rfl⟩

theorem reveals_resample : resample.Reveals := by
  obtain ⟨run, implementation, -, opened⟩ := resample_ok
  refine reveals_of_series implementation fun a v made => ?_
  obtain ⟨r, rfl, -⟩ := opened a v made
  exact ⟨r, rfl⟩

theorem reveals_rolling : rolling.Reveals := by
  obtain ⟨run, implementation, -, opened⟩ := rolling_ok
  refine reveals_of_series implementation fun a v made => ?_
  obtain ⟨r, rfl, -⟩ := opened a v made
  exact ⟨r, rfl⟩

/-- No built-in operator on values hides a series in a value that is none. -/
theorem builtin_reveals {o : Operator} (h : o ∈ builtins) : o.Reveals := by
  simp only [builtins, List.mem_cons, List.not_mem_nil, or_false] at h
  rcases h with rfl | rfl | rfl | rfl | rfl | rfl | rfl | rfl | rfl | rfl | rfl | rfl | rfl | rfl |
    rfl | rfl | rfl | rfl | rfl | rfl | rfl | rfl | rfl | rfl | rfl | rfl | rfl | rfl
  · exact reveals_of_scalar (by decide)
  · exact reveals_arithmetic ..
  · exact reveals_arithmetic ..
  · exact reveals_divide
  · exact reveals_power
  · exact reveals_of_series rfl fun _ _ => series_of_bind
  · exact reveals_of_series rfl fun _ _ => series_of_bind
  · exact reveals_of_series rfl fun _ _ => series_of_bind
  · exact reveals_extremum ..
  · exact reveals_extremum ..
  · exact reveals_of_series rfl fun _ _ => series_of_bind
  · exact reveals_of_series rfl fun _ _ => series_of_bind
  · exact reveals_of_series rfl fun _ _ => series_of_bind
  · exact reveals_of_series rfl fun _ _ => series_of_bind
  · exact reveals_of_series rfl fun _ _ => series_of_bind
  · exact reveals_clip
  · exact reveals_of_series rfl fun _ _ => series_of_bind
  · exact reveals_resample
  · exact reveals_of_series rfl fun _ _ => series_of_bind
  · exact reveals_rolling
  · exact reveals_of_tree rfl
  · exact reveals_of_tree rfl
  · exact reveals_of_scalar (by decide)
  · exact reveals_of_scalar (by decide)
  · exact reveals_of_scalar (by decide)
  · exact reveals_of_scalar (by decide)
  · exact reveals_of_scalar (by decide)
  · exact reveals_of_scalar (by decide)

/-- The keywords of the built-in operators have different names and are no series. -/
theorem builtin_keywords : ∀ o ∈ builtins, (o.signature.keywords.map Param.name).Nodup ∧
    ∀ p ∈ o.signature.keywords, p.type.takesSeries = false := by
  decide +kernel

end Operator

end SeriesLang
