import Mathlib.Data.Set.Card
import SeriesLang.Proofs.Series.Points

/-! # Edits

A series is edited point by point or as a whole. Whatever edits it goes through, its points list in the order of
time the map that these edits make of the one that it was, and none of them is NaN.
-/

namespace SeriesLang.Series

variable {s : Series} {t : Instant}

/-- The points list a map in the order of time, each instant once and with a number that is not NaN. -/
structure Tabulates (points : List (Instant × Float)) (m : Instant → Option Float) : Prop where
  ascending : points.Pairwise (fun p q => p.1 < q.1)
  defined : ∀ p ∈ points, p.2.isNaN = false
  lists : ∀ t v, m t = some v ↔ (t, v) ∈ points

theorem tabulates (s : Series) : Tabulates s.points s.get? :=
  ⟨s.ascending, s.defined, fun _ _ => get?_eq_some_iff⟩

/-- The points that are dropped from the end are as many as there should be, or all. -/
theorem exists_pruned (s : Series) (count : Nat) :
    ∃ dropped, s.points = (s.pruneLast count).points ++ dropped ∧ dropped.length = min count s.size := by
  refine ⟨s.points.drop (s.points.length - count), (List.take_append_drop _ _).symm, ?_⟩
  rw [List.length_drop, size]
  omega

/-- A point is among the first ones if there are enough points behind it. -/
theorem mem_take_iff {points : List (Instant × Float)} (h : Sorted.Ascending points) (count : Nat) {v : Float}
    (ht : (t, v) ∈ points) : (t, v) ∈ points.take (points.length - count) ↔
      count ≤ (points.filter (fun p => decide (t < p.1))).length := by
  induction points with
  | nil => cases ht
  | cons p rest ih =>
      obtain ⟨before, hrest⟩ := List.pairwise_cons.1 h
      have few : (rest.filter (fun p => decide (t < p.1))).length ≤ rest.length := List.length_filter_le ..
      by_cases enough : count ≤ rest.length
      · rw [List.length_cons, Nat.succ_sub enough, List.take_succ_cons]
        rcases List.mem_cons.1 ht with rfl | ht
        · have all : rest.filter (fun p => decide (t < p.1)) = rest :=
            List.filter_eq_self.2 fun q hq => decide_eq_true (before q hq)
          rw [List.filter_cons_of_neg (by simpa using Instant.lt_irrefl t), all]
          exact iff_of_true List.mem_cons_self enough
        · have earlier : p.1 < t := before _ ht
          have apart : (t, v) ≠ p := by
            rintro rfl
            exact Instant.lt_irrefl t earlier
          rw [List.filter_cons_of_neg (by simpa using Instant.not_lt_of_lt earlier), List.mem_cons,
            ← ih hrest ht]
          exact or_iff_right apart
      · rw [List.length_cons, show rest.length + 1 - count = 0 by omega, List.take_zero]
        refine iff_of_false List.not_mem_nil fun le => ?_
        rcases List.mem_cons.1 ht with rfl | ht
        · rw [List.filter_cons_of_neg (by simpa using Instant.lt_irrefl t)] at le
          omega
        · rw [List.filter_cons_of_neg (by simpa using Instant.not_lt_of_lt (before _ ht))] at le
          omega

/-- The instants behind one at which a series has a value. -/
theorem encard_later (s : Series) (t : Instant) : {u | t < u ∧ (s.get? u).isSome}.encard =
    (s.points.filter (fun p => decide (t < p.1))).length := by
  have distinct : ((s.points.filter (fun p => decide (t < p.1))).map Prod.fst).Nodup :=
    Sorted.Ascending.nodup (s.ascending.sublist List.filter_sublist)
  have same : {u | t < u ∧ (s.get? u).isSome} =
      (((s.points.filter (fun p => decide (t < p.1))).map Prod.fst).toFinset : Set Instant) := by
    ext u
    rw [Set.mem_ofPred_eq, get?_isSome_iff, List.coe_toFinset, Set.mem_ofPred_eq, index]
    simp only [List.mem_map, List.mem_filter, decide_eq_true_eq]
    grind
  rw [same, Set.encard_coe_eq_coe_finsetCard, List.toFinset_card_of_nodup distinct, List.length_map]

/-- An edit of a series. To make a series of points is an edit that forgets what was there. -/
inductive Edit where
  | insert (t : Instant) (v : Float)
  | ofPoints (points : List (Instant × Float))
  | mapValues (f : Float → Float)
  | retain (keep : Instant → Float → Bool)
  | restrict (w : Window)
  | pruneLast (count : Nat)

namespace Edit

/-- The edited series. -/
def apply (s : Series) : Edit → Series
  | .insert t v => s.insert t v
  | .ofPoints points => .ofPoints points
  | .mapValues f => s.mapValues f
  | .retain keep => s.retain keep
  | .restrict w => s.restrict w
  | .pruneLast count => s.pruneLast count

/-- What an edit makes of a map. NaN erases, an instant that is set changes alone, and of the instants with a
    value those are dropped that have fewer than so many others behind them. -/
noncomputable def effect (m : Instant → Option Float) : Edit → Instant → Option Float
  | .insert u v => fun t => if t = u then defined? v else m t
  | .ofPoints points => fun t => (latest t points).bind defined?
  | .mapValues f => fun t => (m t).bind (fun v => defined? (f v))
  | .retain keep => fun t => (m t).filter (keep t)
  | .restrict w => fun t => if w.contains t then m t else none
  | .pruneLast count => fun t => if count ≤ {u | t < u ∧ (m u).isSome}.encard then m t else none

/-- The options of an edited series: they stay, but a series that is made of points has none. -/
def optionsAfter (options : SeriesOptions) : Edit → SeriesOptions
  | .ofPoints _ => {}
  | _ => options

end Edit

theorem get?_pruneLast (s : Series) (count : Nat) :
    (s.pruneLast count).get? = Edit.effect s.get? (.pruneLast count) := by
  funext t
  show _ = if count ≤ {u | t < u ∧ (s.get? u).isSome}.encard then s.get? t else none
  refine Option.ext fun v => ?_
  rw [get?_eq_some_iff, Option.ite_none_right_eq_some, get?_eq_some_iff, encard_later, Nat.cast_le]
  constructor
  · intro kept
    have there : (t, v) ∈ s.points := List.mem_of_mem_take kept
    exact ⟨(mem_take_iff s.ascending count there).1 kept, there⟩
  · rintro ⟨enough, there⟩
    exact (mem_take_iff s.ascending count there).2 enough

/-- An edited series is the edited map. -/
theorem get?_apply (s : Series) (edit : Edit) : (edit.apply s).get? = edit.effect s.get? := by
  cases edit with
  | insert u v =>
      funext t
      show (s.insert u v).get? t = if t = u then defined? v else s.get? t
      rw [get?_insert]
      simp only [eq_comm]
  | ofPoints points => exact funext (get?_ofPoints_latest points)
  | mapValues f => exact funext (get?_mapValues s f)
  | retain keep => exact funext (get?_retain s keep)
  | restrict w => exact funext (get?_restrict s w)
  | pruneLast count => exact get?_pruneLast s count

theorem options_apply (s : Series) (edit : Edit) :
    (edit.apply s).options = edit.optionsAfter s.options := by
  cases edit with
  | insert t v => exact options_insert s t v
  | ofPoints points => exact options_ofPoints points
  | _ => rfl

/-- A series after some edits. -/
def edited (s : Series) (edits : List Edit) : Series :=
  edits.foldl Edit.apply s

/-- Whatever edits a series goes through, it is the map that they make, with the options that they leave. -/
theorem edited_eq (s : Series) (edits : List Edit) :
    (s.edited edits).get? = edits.foldl Edit.effect s.get? ∧
      (s.edited edits).options = edits.foldl Edit.optionsAfter s.options := by
  induction edits generalizing s with
  | nil => exact ⟨rfl, rfl⟩
  | cons edit edits ih =>
      have later := ih (edit.apply s)
      rw [get?_apply, options_apply] at later
      exact later

/-- A NaN erases the point that was set before, and the last one of the others is dropped. -/
example :
    let edits : List Edit := [.insert { seconds := 0, nanos := 0 } 1, .insert { seconds := 60, nanos := 0 } 2,
      .insert { seconds := 0, nanos := 0 } (0 / 0), .insert { seconds := 120, nanos := 0 } 3, .pruneLast 1]
    (empty.edited edits).points = [({ seconds := 60, nanos := 0 }, 2)] := by
  decide +kernel

end SeriesLang.Series
