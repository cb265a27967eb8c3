import SeriesLang.Proofs.Decimal.Order
import SeriesLang.Proofs.Operator.Plain
import SeriesLang.Query.Evaluate

/-! # Values cut to bounds

`clip` wants its bounds in order. It refuses them the wrong way round, but a bound that is NaN is neither above
nor below the other one: then the first value that has to be cut aborts.
-/

namespace SeriesLang.Operator

variable {args : Arguments} {s r : Series} {low high v : Float}

/-- The lower bound that the keywords give. -/
def lowest (args : Arguments) : Float :=
  (args.numberKeyword? "min").getD (-Decimal.infinity)

/-- The upper bound that the keywords give. -/
def highest (args : Arguments) : Float :=
  (args.numberKeyword? "max").getD Decimal.infinity

/-- The points that are not to be dropped. -/
def remaining (args : Arguments) (s : Series) : Series :=
  let s := if args.boolKeyword "replacemax" true then s else s.retain (fun _ v => v ≤ highest args)
  if args.boolKeyword "replacemin" true then s else s.retain (fun _ v => lowest args ≤ v)

theorem mem_remaining {p : Instant × Float} : p ∈ (remaining args s).points ↔ p ∈ s.points ∧
    (args.boolKeyword "replacemax" true = false → p.2 ≤ highest args) ∧
      (args.boolKeyword "replacemin" true = false → lowest args ≤ p.2) := by
  unfold remaining Series.retain
  cases args.boolKeyword "replacemax" true <;> cases args.boolKeyword "replacemin" true <;>
    simp [and_comm]

/-- Between ordered bounds a number is cut to lie between them. -/
theorem clampValue_bounds (ordered : low ≤ high) (number : v.isNaN = false) :
    low ≤ clampValue low high v ∧ clampValue low high v ≤ high := by
  obtain ⟨lowNumber, highNumber⟩ := Decimal.isNaN_of_le ordered
  unfold clampValue
  split
  · exact ⟨Decimal.le_refl lowNumber, ordered⟩
  · rename_i above
    split
    · exact ⟨ordered, Decimal.le_refl highNumber⟩
    · rename_i below
      exact ⟨Decimal.le_of_not_lt lowNumber number above, Decimal.le_of_not_lt number highNumber below⟩

/-- Values that are replaced by numbers stay where they are. -/
theorem points_mapValues {f : Float → Float} (numbers : ∀ p ∈ s.points, (f p.2).isNaN = false) :
    (s.mapValues f).points = s.points.map fun p => (p.1, f p.2) := by
  show s.points.filterMap (Series.mapPoint? f) = _
  rw [← List.filterMap_eq_map']
  refine List.filterMap_congr fun p hp => ?_
  rw [Series.mapPoint?, numbers p hp]
  rfl

/-- What `clip` says of bounds the wrong way round. -/
def reversedBounds (args : Arguments) : Error :=
  args.failure ("min " ++ Decimal.text .plain (lowest args) ++ " is greater than max " ++
    Decimal.text .plain (highest args))

theorem clipSeries_eq (first : args.seriesAt 0 = .ok s) : clipSeries args =
    if highest args < lowest args then .error (reversedBounds args)
    else if (decide (lowest args ≤ highest args) || (remaining args s).points.isEmpty) = true then
      .ok (.series ((remaining args s).mapValues (clampValue (lowest args) (highest args))))
    else .error (.aborted .unorderedBounds) := by
  show Except.bind (args.seriesAt 0) _ = _
  rw [first]
  rfl

/-- Bounds that are not compared abort, if there is anything to cut. -/
theorem clipSeries_aborted_iff (first : args.seriesAt 0 = .ok s) :
    clipSeries args = .error (.aborted .unorderedBounds) ↔
      ((lowest args).isNaN = true ∨ (highest args).isNaN = true) ∧ (remaining args s).points ≠ [] := by
  rw [clipSeries_eq first]
  by_cases reversed : highest args < lowest args
  · obtain ⟨highNumber, lowNumber⟩ := Decimal.isNaN_of_le (Decimal.le_of_lt reversed)
    rw [if_pos reversed, highNumber, lowNumber]
    simp [reversedBounds, Arguments.failure]
  · rw [if_neg reversed]
    by_cases ordered : lowest args ≤ highest args
    · obtain ⟨lowNumber, highNumber⟩ := Decimal.isNaN_of_le ordered
      rw [lowNumber, highNumber]
      simp [ordered]
    · have unordered : (lowest args).isNaN = true ∨ (highest args).isNaN = true := by
        by_contra numbers
        rw [not_or, Bool.not_eq_true, Bool.not_eq_true] at numbers
        exact ordered (Decimal.le_of_not_lt numbers.1 numbers.2 reversed)
      rw [and_iff_right unordered]
      simp [ordered]

/-- What is left has the points that were not dropped, and lies between the bounds. -/
theorem clipSeries_within (first : args.seriesAt 0 = .ok s) (h : clipSeries args = .ok (.series r)) :
    r.index = (remaining args s).index ∧ ∀ v ∈ r.values, lowest args ≤ v ∧ v ≤ highest args := by
  rw [clipSeries_eq first] at h
  obtain ⟨-, h⟩ := ok_of_else h
  obtain ⟨cut, h⟩ := ok_of_then h
  cases h
  have inside : ∀ p ∈ (remaining args s).points,
      lowest args ≤ clampValue (lowest args) (highest args) p.2 ∧
        clampValue (lowest args) (highest args) p.2 ≤ highest args := by
    intro p hp
    rw [Bool.or_eq_true, decide_eq_true_eq] at cut
    rcases cut with ordered | empty
    · exact clampValue_bounds ordered ((remaining args s).defined p hp)
    · rw [List.isEmpty_iff.1 empty] at hp
      cases hp
  have points := points_mapValues fun p hp => (Decimal.isNaN_of_le (inside p hp).1).2
  constructor
  · rw [Series.index, points, List.map_map]
    rfl
  · intro v hv
    rw [Series.values, points, List.map_map] at hv
    obtain ⟨p, hp, rfl⟩ := List.mem_map.1 hv
    exact inside p hp

/-- Without NaN among the bounds `clip` fails as it says or leaves what was not dropped, between the bounds. With
    NaN it aborts unless nothing is left to cut. -/
theorem clip_bounded (first : args.seriesAt 0 = .ok s) :
    (clipSeries args = .error (.aborted .unorderedBounds) ↔
      ((lowest args).isNaN = true ∨ (highest args).isNaN = true) ∧ (remaining args s).points ≠ []) ∧
    (highest args < lowest args → clipSeries args = .error (reversedBounds args)) ∧
    (¬ highest args < lowest args →
      clipSeries args = .error (.aborted .unorderedBounds) ∨ ∃ r, clipSeries args = .ok (.series r)) ∧
    (∀ r, clipSeries args = .ok (.series r) → r.index = (remaining args s).index ∧
      ∀ v ∈ r.values, lowest args ≤ v ∧ v ≤ highest args) ∧
    ∀ p, p ∈ (remaining args s).points ↔ p ∈ s.points ∧
      (args.boolKeyword "replacemax" true = false → p.2 ≤ highest args) ∧
        (args.boolKeyword "replacemin" true = false → lowest args ≤ p.2) := by
  refine ⟨clipSeries_aborted_iff first, fun reversed => ?_, fun straight => ?_,
    fun r h => clipSeries_within first h, fun p => mem_remaining⟩
  · rw [clipSeries_eq first, if_pos reversed]
  · rw [clipSeries_eq first, if_neg straight]
    split
    · exact .inr ⟨_, rfl⟩
    · exact .inl rfl

/-- A value in each of three minutes. -/
def rising : Series :=
  .ofPoints [({ seconds := 0, nanos := 0 }, 1), ({ seconds := 60, nanos := 0 }, 2),
    ({ seconds := 120, nanos := 0 }, 3)]

theorem clip_bounded_rising :
    let args : Arguments := ⟨"clip", .root, [.series rising],
      [("min", .float 1.5), ("max", .float 2.5), ("replacemin", .bool false)], none⟩
    ∃ r, clipSeries args = .ok (.series r) ∧ r.index = [{ seconds := 60, nanos := 0 }, { seconds := 120, nanos := 0 }] ∧
      ∀ v ∈ r.values, 1.5 ≤ v ∧ v ≤ 2.5 := by
  intro args
  obtain ⟨aborts, -, answers, within, -⟩ := clip_bounded (rfl : args.seriesAt 0 = .ok rising)
  have numbers : (lowest args).isNaN = false ∧ (highest args).isNaN = false := by decide +kernel
  obtain ⟨r, made⟩ : ∃ r, clipSeries args = .ok (.series r) := by
    refine (answers (by decide +kernel)).resolve_left fun aborted => ?_
    obtain ⟨unordered, -⟩ := aborts.1 aborted
    rw [numbers.1, numbers.2] at unordered
    exact Bool.false_ne_true (or_self_iff.1 unordered)
  obtain ⟨index, inside⟩ := within r made
  have left : (remaining args rising).index = [{ seconds := 60, nanos := 0 }, { seconds := 120, nanos := 0 }] := by
    decide +kernel
  exact ⟨r, made, index.trans left, inside⟩

end SeriesLang.Operator

namespace SeriesLang.Env

/-- A store with one point. -/
def pointed : Env where
  registry := .builtin
  store := ({} : Store).insert "s" { seconds := 20, nanos := 0 } [({ seconds := 10, nanos := 0 }, 1)]

/-- Infinity less infinity as a lower bound. -/
def doubtful : Expr :=
  let product (x : Float) : Expr := .call ⟨"*", [.literal (.float x), .literal (.float 10)], []⟩
  .call ⟨"clip", [.series "s"], [("min", .call ⟨"+", [product 1e308, product (-1e308)], []⟩)]⟩

theorem clip_unordered : (pointed.evaluate { now := { seconds := 99, nanos := 0 } } doubtful).run
    (fun _ => .ok none) = .error (.aborted .unorderedBounds) := by
  have failed : (match (pointed.evaluate { now := { seconds := 99, nanos := 0 } } doubtful).run
      (fun _ => .ok none) with | .error e => some e | .ok _ => none) =
      some (.aborted .unorderedBounds) := by decide +kernel
  split at failed
  · rename_i e h
    cases failed
    exact h
  · cases failed

end SeriesLang.Env
