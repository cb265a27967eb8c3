import SeriesLang.Proofs.Time.Moves
import SeriesLang.Time.Index

/-! # Merging indexes

Indexes that ascend are merged into one that ascends and has the instants of all of them.
-/

namespace SeriesLang.Index

/-- The instants ascend strictly. -/
def Ascending (ts : List Instant) : Prop :=
  ts.Pairwise (· < ·)

/-- Behind what is earlier an instant stands in front of what is later. -/
theorem ascending_between {before ts us : List Instant} {t u : Instant}
    (first : Ascending (before.reverseAux (t :: ts))) (second : Ascending (before.reverseAux (u :: us)))
    (hlt : t < u) : Ascending (before.reverseAux (t :: u :: us)) := by
  rw [List.reverseAux_eq] at first second ⊢
  obtain ⟨earlier, -, behind⟩ := List.pairwise_append.1 first
  obtain ⟨-, later, behind'⟩ := List.pairwise_append.1 second
  have above : ∀ v ∈ u :: us, t < v := List.forall_mem_cons.2
    ⟨hlt, fun v hv => Instant.lt_trans hlt (List.rel_of_pairwise_cons later hv)⟩
  exact List.pairwise_append.2 ⟨earlier, List.pairwise_cons.2 ⟨above, later⟩,
    fun b hb => List.forall_mem_cons.2 ⟨behind b hb t List.mem_cons_self, behind' b hb⟩⟩

/-- What was merged before ascends together with what is left of either index. -/
theorem ascending_mergeOnto {before ts us : List Instant} (first : Ascending (before.reverseAux ts))
    (second : Ascending (before.reverseAux us)) : Ascending (mergeOnto before ts us) := by
  fun_induction mergeOnto before ts us with
  | case1 before us => exact second
  | case2 before ts => exact first
  | case3 before t ts u us hlt ih => exact ih first (ascending_between first second hlt)
  | case4 before ts t us hlt ih => exact ih first second
  | case5 before t ts u us hlt hne ih =>
      have below : u < t := ((Instant.lt_trichotomy t u).resolve_left hlt).resolve_left hne
      exact ih (ascending_between second first below) second

theorem ascending_merge {ts us : List Instant} (hts : Ascending ts) (hus : Ascending us) :
    Ascending (merge ts us) :=
  ascending_mergeOnto hts hus

theorem mem_union {t : Instant} {indexes : List (List Instant)} :
    t ∈ union indexes ↔ ∃ ts ∈ indexes, t ∈ ts := by
  induction indexes with
  | nil => simp [union]
  | cons ts rest ih =>
      have step : union (ts :: rest) = merge ts (union rest) := rfl
      rw [step, mem_merge, ih]
      simp

/-- The union of indexes is an index. -/
theorem ascending_union {indexes : List (List Instant)} (h : ∀ ts ∈ indexes, Ascending ts) :
    Ascending (union indexes) := by
  induction indexes with
  | nil => exact .nil
  | cons ts rest ih =>
      exact ascending_merge (h ts List.mem_cons_self)
        (ih (fun us hus => h us (List.mem_cons_of_mem _ hus)))

theorem ascending_insert (t : Instant) {ts : List Instant} (h : Ascending ts) :
    Ascending (insert t ts) :=
  ascending_merge (List.pairwise_singleton _ _) h

theorem mem_insert {t u : Instant} {ts : List Instant} : u ∈ insert t ts ↔ u = t ∨ u ∈ ts := by
  rw [insert, mem_merge, List.mem_singleton]

end SeriesLang.Index
