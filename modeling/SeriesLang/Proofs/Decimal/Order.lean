import SeriesLang.Decimal.Basic

/-! # The order of doubles

Two doubles are compared as soon as none of them is NaN; then one is less than the other or they are equal, and
the other way round it is the opposite.
-/

namespace SeriesLang.Decimal

open Float.Model

theorem compare_swap (a b : UnpackedFloat) : b.compare a = (a.compare b).map Ordering.swap := by
  have sizes : ∀ (e k : Int) (m n : Nat),
      (compare k e).then (compare n m) = ((compare e k).then (compare m n)).swap := by
    intro e k m n
    rw [Ordering.swap_then, ← Std.OrientedCmp.eq_swap, ← Std.OrientedCmp.eq_swap]
  rcases a with (_ | _) | _ | (_ | _) | ⟨_ | _, m, e, _⟩ <;>
    rcases b with (_ | _) | _ | (_ | _) | ⟨_ | _, n, k, _⟩
  all_goals first
    | rfl
    | exact congrArg some (sizes e k m n)
    | exact congrArg (fun o => some o.swap) (sizes e k m n)

theorem isSome_compare (a b : UnpackedFloat) : (a.compare b).isSome = (!a.isNaN && !b.isNaN) := by
  rcases a with (_ | _) | _ | (_ | _) | ⟨_ | _, m, e, _⟩ <;>
    rcases b with (_ | _) | _ | (_ | _) | ⟨_ | _, n, k, _⟩ <;> rfl

variable {x y : Float}

theorem le_iff_compare :
    x ≤ y ↔ ∃ o, x.toModel.unpack.compare y.toModel.unpack = some o ∧ o.isLE = true := by
  show decide ((x.toModel.unpack.compare y.toModel.unpack).any (·.isLE) = true) = true ↔ _
  rw [decide_eq_true_eq, Option.any_eq_true]

theorem lt_iff_compare : x < y ↔ x.toModel.unpack.compare y.toModel.unpack = some .lt := by
  show decide ((x.toModel.unpack.compare y.toModel.unpack == some .lt) = true) = true ↔ _
  rw [decide_eq_true_eq, beq_iff_eq]

/-- What is compared at all is no NaN. -/
theorem isNaN_of_le (h : x ≤ y) : x.isNaN = false ∧ y.isNaN = false := by
  obtain ⟨o, compared, -⟩ := le_iff_compare.1 h
  have numbers : (!x.isNaN && !y.isNaN) = true :=
    (isSome_compare x.toModel.unpack y.toModel.unpack).symm.trans (Option.isSome_iff_exists.2 ⟨o, compared⟩)
  simpa using numbers

theorem not_lt_of_le (h : x ≤ y) : ¬ y < x := by
  obtain ⟨o, compared, le⟩ := le_iff_compare.1 h
  intro lt
  rw [lt_iff_compare, compare_swap, compared] at lt
  cases o <;> cases lt
  cases le

theorem le_of_not_lt (hx : x.isNaN = false) (hy : y.isNaN = false) (h : ¬ y < x) : x ≤ y := by
  have compared : (x.toModel.unpack.compare y.toModel.unpack).isSome = true := by
    rw [isSome_compare]
    show (!x.isNaN && !y.isNaN) = true
    rw [hx, hy]
    rfl
  obtain ⟨o, ho⟩ := Option.isSome_iff_exists.1 compared
  rw [lt_iff_compare, compare_swap, ho] at h
  refine le_iff_compare.2 ⟨o, ho, ?_⟩
  cases o with
  | lt | eq => rfl
  | gt => exact absurd rfl h

theorem le_of_lt (h : x < y) : x ≤ y :=
  le_iff_compare.2 ⟨.lt, lt_iff_compare.1 h, rfl⟩

theorem le_refl (hx : x.isNaN = false) : x ≤ x := by
  refine le_of_not_lt hx hx fun less => ?_
  exact not_lt_of_le (le_of_lt less) less

end SeriesLang.Decimal
