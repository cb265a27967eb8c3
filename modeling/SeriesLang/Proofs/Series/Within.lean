import SeriesLang.Proofs.Operator.Plain
import SeriesLang.Proofs.Series.Rows
import SeriesLang.Proofs.Time.Grid

/-! # Where points lie

No operation on series makes points where none of its inputs has one, but for a grid, which moves them to
earlier instants. A set of instants with all points of the inputs has those of the result.
-/

namespace SeriesLang

namespace Series

variable {K : Instant → Prop} {s : Series}

/-- All points lie at instants of a set. -/
def Within (K : Instant → Prop) (s : Series) : Prop :=
  ∀ p ∈ s.points, K p.1

theorem Within.index (h : s.Within K) : ∀ t ∈ s.index, K t := by
  intro t ht
  obtain ⟨p, hp, rfl⟩ := List.mem_map.1 ht
  exact h p hp

theorem Within.get?_eq_none (h : s.Within K) {t : Instant} (outside : ¬ K t) : s.get? t = none := by
  cases found : s.get? t with
  | none => rfl
  | some v => exact absurd (h _ (get?_eq_some_iff.1 found)) outside

theorem Within.ofPoints {points : List (Instant × Float)} (h : ∀ p ∈ points, K p.1) :
    (Series.ofPoints points).Within K :=
  fun p hp => h p (mem_ofPoints hp)

theorem Within.retain (h : s.Within K) (keep : Instant → Float → Bool) : (s.retain keep).Within K :=
  fun p hp => h p (List.mem_filter.1 hp).1

theorem Within.mapValues (h : s.Within K) (f : Float → Float) : (s.mapValues f).Within K := by
  intro p hp
  obtain ⟨q, hq, mapped⟩ := List.mem_filterMap.1 hp
  simp only [mapPoint?, Option.ite_none_left_eq_some, Option.some.injEq] at mapped
  rw [← mapped.2]
  exact h q hq

/-- Points that are made of some of the rows of series. -/
theorem Within.ofRows {inputs : List Series} (h : ∀ s ∈ inputs, s.Within K)
    {rows : List (Instant × List (Option Float))}
    (index : rows.map Prod.fst = Combine.indexOf inputs)
    {pick : Instant × List (Option Float) → Option (Instant × Float)}
    (keys : ∀ p q, pick p = some q → q.1 = p.1) : (Series.ofPoints (rows.filterMap pick)).Within K := by
  apply Within.ofPoints
  intro q hq
  obtain ⟨p, hp, picked⟩ := List.mem_filterMap.1 hq
  rw [keys p q picked]
  have covered : p.1 ∈ Combine.indexOf inputs := index ▸ List.mem_map.2 ⟨p, hp, rfl⟩
  obtain ⟨s, hs, found⟩ := Combine.mem_indexOf.1 covered
  exact (h s hs).index p.1 (get?_isSome_iff.1 found)

theorem Within.strict {inputs : List Series} (h : ∀ s ∈ inputs, s.Within K)
    (f : List Float → Float) : (Combine.strict f inputs).Within K := by
  apply Within.ofRows h (Combine.map_fst_rowsOf _ _)
  intro p q picked
  obtain ⟨row, -, rfl⟩ := Option.map_eq_some_iff.1 picked
  rfl

theorem Within.patch {inputs : List Series} (h : ∀ s ∈ inputs, s.Within K) :
    (Combine.patch inputs).Within K := by
  apply Within.ofRows h (Combine.map_fst_rowsOf _ _)
  intro p q picked
  obtain ⟨v, -, rfl⟩ := Option.map_eq_some_iff.1 picked
  rfl

theorem Within.lenient {inputs : List Series} (h : ∀ s ∈ inputs, s.Within K)
    (f : List (Float × Float) → Option Float) (skipMissing : Bool) :
    (Combine.lenient f skipMissing inputs).Within K := by
  apply Within.ofRows h (Combine.map_fst_rowsOf _ _)
  intro p q picked
  simp only at picked
  split at picked
  · cases picked
  · split at picked
    · cases picked
    · obtain ⟨v, -, rfl⟩ := Option.map_eq_some_iff.1 picked
      rfl

theorem forall_of_forall₂ {P : Series → Prop} {ss ss' : List Series}
    (h : List.Forall₂ (fun s _ => P s) ss ss') : ∀ s ∈ ss, P s := by
  induction h with
  | nil => simp
  | cons first _ ih =>
      intro s hs
      rcases List.mem_cons.1 hs with rfl | hs
      · exact first
      · exact ih s hs

theorem closed_within (K : Instant → Prop) : Closed (fun s _ => s.Within K) where
  mapValues h f := h.mapValues f
  retain h keep := h.retain keep
  strict h f := .strict (forall_of_forall₂ h) f
  lenient h f skip := .lenient (forall_of_forall₂ h) f skip
  patch h := .patch (forall_of_forall₂ h)

theorem Within.resample (down : ∀ t u, K t → u ≤ t → K u) (h : s.Within K) {f : Frequency}
    {a : Aggregate} {r : Series} (made : s.resample f a = .ok r) : r.Within K := by
  obtain ⟨buckets, grouped, made⟩ := ok_of_bind made
  cases made
  obtain ⟨floored, mapped, grouped⟩ := ok_of_bind grouped
  cases grouped
  apply Within.ofPoints
  intro p hp
  obtain ⟨bucket, hbucket, value⟩ := List.mem_filterMap.1 hp
  obtain ⟨v, -, rfl⟩ := Option.map_eq_some_iff.1 value
  obtain ⟨q, hq, heq⟩ := Sorted.mem_group hbucket
  obtain ⟨origin, horigin, start⟩ := (mem_of_mapM mapped).1 q hq
  obtain ⟨below, floor, start⟩ := ok_of_bind start
  cases start
  rw [← heq]
  exact down _ _ (h origin horigin) (Frequency.floor_le floor)

theorem Within.rolling (h : s.Within K) (count : Nat) (a : Aggregate) : (s.rolling count a).Within K := by
  apply Within.ofPoints
  intro p hp
  obtain ⟨⟨t, v?⟩, hpair, value⟩ := List.mem_filterMap.1 hp
  obtain ⟨v, -, rfl⟩ := Option.map_eq_some_iff.1 value
  exact h.index t (List.mem_of_mem_drop (List.of_mem_zip hpair).1)

theorem Within.cumulative (h : s.Within K) : s.cumulative.Within K := by
  apply Within.ofPoints
  intro p hp
  refine List.foldlRecOn (motive := fun acc : Float × List (Instant × Float) => ∀ p ∈ acc.2, K p.1)
    s.points _ (List.forall_mem_nil _) ?_ p (List.mem_reverse.1 hp)
  intro acc kept q hq r hr
  rcases List.mem_cons.1 hr with rfl | hr
  · exact h q hq
  · exact kept r hr

/-- Operations on whole series keep points within a set that has everything before its instants. -/
theorem closedWhole_within (down : ∀ t u, K t → u ≤ t → K u) : ClosedWhole (fun s _ => s.Within K) where
  toClosed := closed_within K
  resample h _ _ _ _ made _ := h.resample down made
  rolling h count a := h.rolling count a
  cumulative h := h.cumulative

end Series

end SeriesLang
