import SeriesLang.Operator.Builtin
import SeriesLang.Proofs.Success

/-! # Places do not count

Where an application stands in an expression shows in errors only. The same arguments are made into the same
value everywhere, or into none.
-/

namespace SeriesLang.Operator

variable {α : Type}

/-- What is made of arguments does not depend on the place of the application. -/
def Placeless (run : Arguments → Except Error α) : Prop :=
  ∀ (a : Arguments) (path : Path), Alike (run a) (run { a with path })

theorem placeless_seriesAt (i : Nat) : Placeless (fun a => a.seriesAt i) := by
  intro a path
  dsimp only [Alike, Arguments.seriesAt]
  split <;> rfl

theorem placeless_numberAt (i : Nat) : Placeless (fun a => a.numberAt i) := by
  intro a path
  dsimp only [Alike, Arguments.numberAt, Arguments.positionalAt]
  split <;> rfl

theorem placeless_textAt (i : Nat) : Placeless (fun a => a.textAt i) := by
  intro a path
  dsimp only [Alike, Arguments.textAt, Arguments.positionalAt]
  split <;> rfl

theorem placeless_instantAt (i : Nat) : Placeless (fun a => a.instantAt i) := by
  intro a path
  dsimp only [Alike, Arguments.instantAt, Arguments.positionalAt]
  split <;> rfl

theorem placeless_seriesFrom (i : Nat) : Placeless (fun a => a.seriesFrom i) :=
  fun a path => Alike.mapM (fun i => placeless_seriesAt i a path) _

theorem placeless_requireContext : Placeless Arguments.requireContext := by
  intro a path
  dsimp only [Alike, Arguments.requireContext]
  split <;> rfl

theorem placeless_exclusive (first second : String) :
    Placeless (fun a => a.exclusive first second) :=
  fun _ _ => .ite rfl rfl

theorem placeless_offsetOf (zone : String) : Placeless (fun a => offsetOf a zone) := by
  intro a path
  dsimp only [Alike, offsetOf]
  split <;> rfl

theorem placeless_readDate : Placeless readDate := by
  intro a path
  refine (placeless_exclusive _ _ a path).bind fun _ => (placeless_textAt 0 a path).bind fun text => ?_
  dsimp only [Arguments.textKeyword?, Arguments.keyword]
  split
  · refine Alike.bind rfl fun t => ?_
    split
    · rfl
    · refine (placeless_offsetOf _ a path).bind fun offset => ?_
      split <;> rfl
  · rfl

theorem placeless_readToday : Placeless readToday := by
  intro a path
  refine (placeless_exclusive _ _ a path).bind fun _ => ?_
  have seen := (placeless_requireContext a path).bind (f := fun context =>
    .ok (Value.timestamp (context.revision.getD context.now))) fun _ => rfl
  dsimp only [Arguments.textKeyword?, Arguments.keyword]
  split
  · exact seen
  · exact (placeless_offsetOf _ a path).bind fun _ => seen

theorem placeless_shiftDate : Placeless shiftDate := by
  intro a path
  refine (placeless_instantAt 0 a path).bind fun t => ?_
  dsimp only [Arguments.intKeyword?, Arguments.keyword]
  split <;> rfl

theorem placeless_makeConstant : Placeless makeConstant := by
  intro a path
  refine (placeless_requireContext a path).bind fun context =>
    (placeless_numberAt 0 a path).bind fun v => (placeless_instantAt 4 a path).bind fun revision => ?_
  dsimp only
  split
  · rfl
  · refine (placeless_textAt 3 a path).bind fun text => ?_
    split
    · refine Alike.bind rfl fun f => (placeless_instantAt 1 a path).bind fun first =>
        (placeless_instantAt 2 a path).bind fun last => ?_
      split
      · exact Alike.bind rfl fun grid => .ite rfl rfl
      · rfl
    · rfl

theorem placeless_clipSeries : Placeless clipSeries := by
  intro a path
  refine (placeless_seriesAt 0 a path).bind fun s => ?_
  dsimp only [Arguments.numberKeyword?, Arguments.boolKeyword, Arguments.keyword]
  split <;> rfl

/-- A computation from all arguments as series. -/
theorem Placeless.ofAll {f : Arguments → List Series → Series}
    (same : ∀ a path, f { a with path } = f a) :
    Placeless (fun a => (a.seriesFrom 0).bind fun ss => .ok (Value.series (f a ss))) := by
  intro a path
  have same := same a path
  refine (placeless_seriesFrom 0 a path).bind fun ss => ?_
  rw [same]
  rfl

end SeriesLang.Operator
