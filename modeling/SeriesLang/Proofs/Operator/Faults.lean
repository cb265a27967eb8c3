import SeriesLang.Proofs.Operator.Parallel
import SeriesLang.Proofs.Success

/-! # What operators fail with

A built-in operator fails over the values that it is given. That a name stands for no operator, or that
arguments do not fit one, is found out before an operator runs, and none fails with such an error of its own.
-/

namespace SeriesLang

variable {ε α β : Type}

/-- An error over the shape of an application: there is no such operator, or it takes no such arguments. -/
def Error.OfShape : Error → Prop
  | .unknownOperator _ _ => True
  | .arityMismatch _ _ _ => True
  | _ => False

/-- A computation that fails with errors of a set only. -/
structure FailsWithin (F : ε → Prop) (r : Except ε α) : Prop where
  fails : ∀ err, r = .error err → F err

namespace FailsWithin

variable {F : ε → Prop} {r : Except ε α}

theorem ok (a : α) : FailsWithin F (.ok a : Except ε α) :=
  ⟨fun _ h => nomatch h⟩

theorem error {e : ε} (h : F e) : FailsWithin F (.error e : Except ε α) where
  fails := by
    rintro _ ⟨⟩
    exact h

theorem bind (h : FailsWithin F r) {f : α → Except ε β} (rest : ∀ a, r = .ok a → FailsWithin F (f a)) :
    FailsWithin F (r.bind f) where
  fails := by
    intro err failed
    rcases error_of_bind failed with first | ⟨a, ha, second⟩
    · exact h.fails err first
    · exact (rest a ha).fails err second

theorem ite {c : Prop} [Decidable c] {q : Except ε α} (yes : FailsWithin F r) (no : FailsWithin F q) :
    FailsWithin F (if c then r else q) := by
  split
  · exact yes
  · exact no

theorem mapM {f : α → Except ε β} (each : ∀ a, FailsWithin F (f a)) (as : List α) :
    FailsWithin F (as.mapM f) where
  fails := by
    intro err failed
    obtain ⟨a, -, failed⟩ := error_of_mapM failed
    exact (each a).fails err failed

theorem weaken (h : FailsWithin F r) {G : ε → Prop} (within : ∀ err, F err → G err) : FailsWithin G r :=
  ⟨fun err failed => within err (h.fails err failed)⟩

end FailsWithin

namespace Operator

/-- A value, or an error over values. -/
abbrev Sparing (r : Except Error α) : Prop :=
  FailsWithin (fun err => ¬ err.OfShape) r

theorem sparing_failure (args : Arguments) (message : String) :
    Sparing (.error (args.failure message) : Except Error α) :=
  .error not_false

/-- After a failure nothing follows. -/
theorem sparing_stop (args : Arguments) (message : String) (f : α → Except Error β) :
    Sparing (Except.bind (.error (args.failure message)) f) :=
  sparing_failure args message

variable (args : Arguments)

theorem sparing_requireContext : Sparing args.requireContext := by
  unfold Arguments.requireContext
  split
  · exact .ok _
  · exact sparing_failure ..

theorem sparing_seriesAt (i : Nat) : Sparing (args.seriesAt i) := by
  unfold Arguments.seriesAt
  split
  · exact .ok _
  · exact sparing_failure ..
  · exact sparing_failure ..

theorem sparing_seriesFrom (i : Nat) : Sparing (args.seriesFrom i) :=
  .mapM (sparing_seriesAt args) _

theorem sparing_numberAt (i : Nat) : Sparing (args.numberAt i) := by
  unfold Arguments.numberAt
  split
  · exact .ok _
  · exact sparing_failure ..

theorem sparing_textAt (i : Nat) : Sparing (args.textAt i) := by
  unfold Arguments.textAt
  split
  · exact .ok _
  · exact sparing_failure ..

theorem sparing_instantAt (i : Nat) : Sparing (args.instantAt i) := by
  unfold Arguments.instantAt
  split
  · exact .ok _
  · exact sparing_failure ..

theorem sparing_exclusive (first second : String) : Sparing (args.exclusive first second) :=
  .ite (.error not_false) (.ok _)

theorem sparing_offsetOf (zone : String) : Sparing (offsetOf args zone) := by
  unfold offsetOf
  split
  · exact .ok _
  · exact sparing_failure ..

theorem sparing_orAbort (r : Except Abort α) : Sparing (orAbort r) := by
  cases r with
  | ok a => exact .ok _
  | error cause => exact .error not_false

end Operator

namespace Signature

open Operator (Sparing)

variable (op : String) (path : Path)

theorem sparing_checkValue (p : Param) (v : Value) : Sparing (checkValue op path p v) := by
  refine .ite (.ok _) ?_
  split
  · exact .ok _
  · exact .error not_false

theorem sparing_bindPositional (rest : Option Param) (ps : List Param) (vs : List Value) :
    Sparing (bindPositional op path rest ps vs) := by
  induction ps generalizing vs with
  | nil =>
      cases rest with
      | none => exact .ok _
      | some p => exact .mapM (sparing_checkValue op path p) vs
  | cons p ps ih =>
      cases vs with
      | nil => exact (ih []).bind fun _ _ => .ok _
      | cons v vs => exact (sparing_checkValue op path p v).bind fun _ _ => (ih vs).bind fun _ _ => .ok _

theorem sparing_bindKeywords (ps : List Param) (given bound : List (String × Value)) :
    Sparing (bindKeywords op path ps given bound) := by
  induction ps generalizing given bound with
  | nil => exact .ok _
  | cons p ps ih =>
      simp only [bindKeywords]
      split
      · exact (sparing_checkValue op path p _).bind fun _ _ => ih _ _
      · exact (FailsWithin.ok _).bind fun _ _ => ih _ _

/-- Arguments of the right shape are bound, or one of them has a value of the wrong type. -/
theorem sparing_bind {sig : Signature} {op : String} {path : Path} {positional : List Value}
    {keywords : List (String × Value)}
    (shape : sig.checkShape op path positional.length (keywords.map Prod.fst) = .ok ()) :
    Sparing (sig.bind op path positional keywords) := by
  refine FailsWithin.bind (shape ▸ .ok ()) fun _ _ => ?_
  exact (sparing_bindPositional ..).bind fun _ _ => (sparing_bindKeywords ..).bind fun _ _ => .ok _

end Signature

namespace Operator

variable (args : Arguments)

theorem sparing_readDate : Sparing (readDate args) := by
  refine (sparing_exclusive ..).bind fun _ _ => (sparing_textAt ..).bind fun text _ => ?_
  dsimp only
  split
  · refine (FailsWithin.ok _).bind fun t _ => ?_
    split
    · exact .ok _
    · refine (sparing_offsetOf ..).bind fun offset _ => ?_
      split
      · exact .ok _
      · exact sparing_failure ..
  · exact sparing_stop ..

theorem sparing_readToday : Sparing (readToday args) := by
  have seen := (sparing_requireContext args).bind (f := fun context =>
    .ok (Value.timestamp (context.revision.getD context.now))) fun _ _ => .ok _
  refine (sparing_exclusive ..).bind fun _ _ => ?_
  dsimp only
  split
  · exact seen
  · exact (sparing_offsetOf ..).bind fun _ _ => seen

theorem sparing_shiftDate : Sparing (shiftDate args) := by
  refine (sparing_instantAt ..).bind fun t _ => ?_
  dsimp only
  split
  · exact .ok _
  · exact sparing_failure ..

theorem sparing_makeConstant : Sparing (makeConstant args) := by
  refine (sparing_requireContext ..).bind fun context _ => (sparing_numberAt ..).bind fun v _ =>
    (sparing_instantAt ..).bind fun revision _ => ?_
  dsimp only
  split
  · exact .ok _
  · refine (sparing_textAt ..).bind fun text _ => ?_
    split
    · refine (FailsWithin.ok _).bind fun f _ => (sparing_instantAt ..).bind fun first _ =>
        (sparing_instantAt ..).bind fun last _ => ?_
      split
      · exact (sparing_orAbort _).bind fun grid _ => .ite (sparing_failure ..) (.ok _)
      · exact .ok _
    · exact sparing_stop ..

theorem sparing_clipSeries : Sparing (clipSeries args) :=
  (sparing_seriesAt ..).bind fun _ _ => .ite (sparing_failure ..) (.ite (.ok _) (.error not_false))

end Operator

namespace Body

variable {F : Error → Prop}

/-- Whatever it is answered, an operator fails with errors of a set only. -/
def FailsWithin (F : Error → Prop) : Body α → Prop
  | .done _ => True
  | .fail e => F e
  | .eval _ _ _ next => ∀ v, (next v).FailsWithin F
  | .fetch _ _ next => ∀ s, (next s).FailsWithin F

theorem FailsWithin.bind {b : Body α} (h : b.FailsWithin F) {f : α → Body β}
    (rest : ∀ a, (f a).FailsWithin F) : (b.bind f).FailsWithin F := by
  induction b with
  | done a => exact rest a
  | fail e => exact h
  | eval context e slot next ih => exact fun v => ih v (h v)
  | fetch context name next ih => exact fun s => ih s (h s)

theorem FailsWithin.weaken {b : Body α} (h : b.FailsWithin F) {G : Error → Prop}
    (within : ∀ err, F err → G err) : b.FailsWithin G := by
  induction b with
  | done a => trivial
  | fail e => exact within e h
  | eval context e slot next ih => exact fun v => ih v (h v)
  | fetch context name next ih => exact fun s => ih s (h s)

theorem Parallel.failsWithin {b b' : Body α} (h : b.Parallel ⟨Eq, Eq, fun err _ => F err⟩ b') :
    b.FailsWithin F := by
  induction h with
  | done a => trivial
  | fail errors => exact errors
  | eval _ _ _ ih => exact ih

/-- A request-making computation that fails over values only. -/
abbrev Sparing (b : Body α) : Prop :=
  b.FailsWithin (fun err => ¬ err.OfShape)

theorem FailsWithin.ofExcept {r : Except Error α} (h : SeriesLang.FailsWithin F r) :
    (Body.ofExcept r).FailsWithin F := by
  cases r with
  | ok a => trivial
  | error e => exact h.fails e rfl

end Body

namespace Operator

/-- An operator that fails over values only. -/
structure Spares (o : Operator) : Prop where
  fails : match o.implementation with
    | .values run => ∀ args, (run args).Sparing
    | .tree run => ∀ call context path, (run call context path).Sparing

theorem spares_of {o : Operator} {run : Arguments → Except Error Value}
    (implementation : o.implementation = .values (fun args => .ofExcept (run args)))
    (h : ∀ args, Sparing (run args)) : o.Spares where
  fails := by
    rw [implementation]
    exact fun args => .ofExcept (h args)

theorem spares_arithmetic (name symbol doc : String) (exact' : Int → Int → Int)
    (rounded : Float → Float → Float) : (arithmetic name symbol doc exact' rounded).Spares :=
  spares_of rfl fun _ => .ok _

theorem spares_divide : divide.Spares :=
  spares_of rfl fun args => (sparing_numberAt args 1).bind fun _ _ => .ite (sparing_failure ..) (.ok _)

theorem spares_power : power.Spares :=
  spares_of rfl fun args => (sparing_numberAt args 1).bind fun _ _ => .ok _

theorem spares_combinator (name : String) (f : List Series → Series) : (combinator name f).Spares :=
  spares_of rfl fun args => (sparing_seriesFrom args 0).bind fun _ _ => .ok _

theorem spares_seriesQuotient : seriesQuotient.Spares :=
  spares_of rfl fun args => (sparing_seriesFrom args 0).bind fun _ _ => .ok _

theorem spares_extremum (name : String) (pick : Float → Float → Float) : (extremum name pick).Spares := by
  refine spares_of rfl fun args => .ite ((sparing_seriesFrom args 0).bind fun _ _ => .ok _) ?_
  split
  · exact .ok _
  · exact sparing_failure ..

theorem spares_rowReduction (name : String) (f : List (Float × Float) → Option Float) :
    (rowReduction name f).Spares :=
  spares_of rfl fun args => (sparing_seriesFrom args 0).bind fun _ _ => .ok _

theorem spares_slice : slice.Spares :=
  spares_of rfl fun args => (sparing_seriesAt args 0).bind fun _ _ => .ok _

theorem spares_resample : resample.Spares := by
  refine spares_of rfl fun args => (sparing_textAt args 1).bind fun text _ => ?_
  dsimp only
  split
  · refine (FailsWithin.ok _).bind fun f _ => (sparing_textAt args 2).bind fun method _ => ?_
    split
    · exact (sparing_seriesAt args 0).bind fun s _ => (sparing_orAbort _).bind fun _ _ => .ok _
    · exact sparing_failure ..
  · exact sparing_stop ..

theorem spares_cumsum : cumsum.Spares :=
  spares_of rfl fun args => (sparing_seriesAt args 0).bind fun _ _ => .ok _

theorem spares_rolling : rolling.Spares := by
  refine spares_of rfl fun args => ?_
  dsimp only
  split
  · refine .ite ((FailsWithin.ok _).bind fun count _ => ?_)
      (sparing_stop ..)
    split
    · exact (sparing_seriesAt args 0).bind fun _ _ => .ok _
    · exact sparing_failure ..
  · exact sparing_stop ..

theorem spares_boundary (name : String) (f : Instant → Instant) : (boundary name f).Spares :=
  spares_of rfl fun args => (sparing_instantAt args 0).bind fun _ _ => .ok _

theorem spares_series : series.Spares where
  fails args := (Body.FailsWithin.ofExcept (sparing_requireContext args)).bind fun _ =>
    (Body.FailsWithin.ofExcept (sparing_textAt args 0)).bind fun _ _ => trivial

theorem sparing_reports (path : Path) :
    Body.Link.Reports ⟨Eq, Eq, fun err _ => ¬ err.OfShape⟩ path path :=
  ⟨fun _ _ => not_false, fun _ _ _ _ => not_false⟩

theorem spares_timeShifted : timeShifted.Spares where
  fails call _ path := (parallel_shiftSeries (.refl (fun _ => rfl) call) (sparing_reports path) rfl rfl
    fun _ => rfl).failsWithin

theorem spares_asOf : asOf.Spares where
  fails call _ path :=
    (parallel_readAsOf (.refl (fun _ => rfl) call) (sparing_reports path) rfl fun _ => rfl).failsWithin

/-- The built-in operators fail over values only. -/
theorem builtin_spares {o : Operator} (h : o ∈ builtins) : o.Spares := by
  simp only [builtins, List.mem_cons, List.not_mem_nil, or_false] at h
  rcases h with rfl | rfl | rfl | rfl | rfl | rfl | rfl | rfl | rfl | rfl | rfl | rfl | rfl | rfl |
    rfl | rfl | rfl | rfl | rfl | rfl | rfl | rfl | rfl | rfl | rfl | rfl | rfl | rfl
  · exact spares_series
  · exact spares_arithmetic ..
  · exact spares_arithmetic ..
  · exact spares_divide
  · exact spares_power
  · exact spares_combinator ..
  · exact spares_combinator ..
  · exact spares_seriesQuotient
  · exact spares_extremum ..
  · exact spares_extremum ..
  · exact spares_combinator ..
  · exact spares_rowReduction ..
  · exact spares_rowReduction ..
  · exact spares_rowReduction ..
  · exact spares_rowReduction ..
  · exact spares_of rfl sparing_clipSeries
  · exact spares_slice
  · exact spares_resample
  · exact spares_cumsum
  · exact spares_rolling
  · exact spares_timeShifted
  · exact spares_asOf
  · exact spares_of rfl sparing_makeConstant
  · exact spares_of rfl sparing_readDate
  · exact spares_of rfl sparing_readToday
  · exact spares_of rfl sparing_shiftDate
  · exact spares_boundary ..
  · exact spares_boundary ..

end Operator

end SeriesLang
