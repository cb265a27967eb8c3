import SeriesLang.Proofs.Operator.Plain
import SeriesLang.Proofs.Series.Rows

/-! # Agreement at an instant

Series that are filled by constants only and agree at one instant are combined to series that agree there:
every operation that looks at one instant at a time is one in this sense.
-/

namespace SeriesLang.Series

variable {t : Instant} {s s' : Series} {ss ss' : List Series}

/-- The series are filled alike, by constants only, and have one value at the instant. -/
structure AgreeAt (t : Instant) (s s' : Series) : Prop where
  options : s.options = s'.options
  pointwise : s.options.Pointwise
  value : s.get? t = s'.get? t

theorem pointwise_default : SeriesOptions.Pointwise {} :=
  ⟨rfl, by simp⟩

/-- Series that are made of points agree where their values do. -/
theorem AgreeAt.ofPoints {points points' : List (Instant × Float)}
    (h : (Series.ofPoints points).get? t = (Series.ofPoints points').get? t) :
    AgreeAt t (.ofPoints points) (.ofPoints points') where
  options := by rw [options_ofPoints, options_ofPoints]
  pointwise := by rw [options_ofPoints]; exact pointwise_default
  value := h

theorem map_eq_of_forall₂ {α : Type} {f : Series → α} (h : List.Forall₂ (AgreeAt t) ss ss')
    (same : ∀ s s', AgreeAt t s s' → f s = f s') : ss.map f = ss'.map f := by
  induction h with
  | nil => rfl
  | cons first _ ih => rw [List.map_cons, List.map_cons, same _ _ first, ih]

theorem mem_indexOf_of_forall₂ (h : List.Forall₂ (AgreeAt t) ss ss') :
    t ∈ Combine.indexOf ss ↔ t ∈ Combine.indexOf ss' := by
  have isSome : ∀ inputs : List Series,
      t ∈ Combine.indexOf inputs ↔ ∃ value ∈ inputs.map (fun s => s.get? t), value.isSome := by
    intro inputs
    rw [Combine.mem_indexOf]
    simp
  rw [isSome, isSome, map_eq_of_forall₂ h (fun _ _ same => same.value)]

theorem pointwise_of_forall₂ (h : List.Forall₂ (AgreeAt t) ss ss') :
    (∀ s ∈ ss, s.options.Pointwise) ∧ ∀ s ∈ ss', s.options.Pointwise := by
  induction h with
  | nil => simp
  | cons first _ ih =>
      have second := first.pointwise
      rw [first.options] at second
      simp only [List.mem_cons, forall_eq_or_imp]
      exact ⟨⟨first.pointwise, ih.1⟩, second, ih.2⟩

theorem AgreeAt.strict (h : List.Forall₂ (AgreeAt t) ss ss') (f : List Float → Float) :
    AgreeAt t (Combine.strict f ss) (Combine.strict f ss') := by
  apply AgreeAt.ofPoints
  show (Combine.strict f ss).get? t = (Combine.strict f ss').get? t
  obtain ⟨left, right⟩ := pointwise_of_forall₂ h
  rw [Combine.get?_strict_pointwise f left, Combine.get?_strict_pointwise f right]
  simp only [mem_indexOf_of_forall₂ h]
  rw [map_eq_of_forall₂ h (fun s s' same => by rw [same.options, same.value])]

theorem AgreeAt.lenient (h : List.Forall₂ (AgreeAt t) ss ss')
    (f : List (Float × Float) → Option Float) (skipMissing : Bool) :
    AgreeAt t (Combine.lenient f skipMissing ss) (Combine.lenient f skipMissing ss') := by
  apply AgreeAt.ofPoints
  show (Combine.lenient f skipMissing ss).get? t = (Combine.lenient f skipMissing ss').get? t
  rw [Combine.get?_lenient, Combine.get?_lenient]
  simp only [mem_indexOf_of_forall₂ h]
  have weights : ss.map Combine.weight = ss'.map Combine.weight :=
    map_eq_of_forall₂ h (fun s s' same => by rw [Combine.weight, Combine.weight, same.options])
  rw [weights, map_eq_of_forall₂ h (fun _ _ same => same.value)]

theorem AgreeAt.patch (h : List.Forall₂ (AgreeAt t) ss ss') :
    AgreeAt t (Combine.patch ss) (Combine.patch ss') := by
  apply AgreeAt.ofPoints
  show (Combine.patch ss).get? t = (Combine.patch ss').get? t
  rw [Combine.get?_patch, Combine.get?_patch, map_eq_of_forall₂ h (fun _ _ same => same.value)]

/-- The operations that look at one instant at a time keep agreement at it. -/
theorem closed_agreeAt (t : Instant) : Closed (AgreeAt t) where
  mapValues h f := ⟨h.options, h.pointwise, by rw [get?_mapValues, get?_mapValues, h.value]⟩
  retain h keep := ⟨h.options, h.pointwise, by rw [get?_retain, get?_retain, h.value]⟩
  strict h f := .strict h f
  lenient h f skip := .lenient h f skip
  patch h := .patch h

end SeriesLang.Series
