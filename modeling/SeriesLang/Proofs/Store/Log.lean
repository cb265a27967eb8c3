import SeriesLang.Proofs.Store.History

/-! # The log of a store

A store keeps histories, which are edited in place. What it says is what a log says to which every write
is only appended: of what was said about a value date up to a revision, the remark with the last insertion
date is in force, and of several with that date the one that was made last.
-/

namespace SeriesLang

open scoped List

namespace Sorted

variable {κ α : Type} [DecidableEq κ] [LT κ] [Std.Asymm (α := κ) (· < ·)]
  [Std.Trichotomous (α := κ) (· < ·)]

/-- The last of ascending entries has the greatest key. -/
theorem Ascending.getLast?_eq_some_iff {entries : List (κ × α)} (h : Ascending entries) {p : κ × α} :
    entries.getLast? = some p ↔ p ∈ entries ∧ ∀ q ∈ entries, ¬ p.1 < q.1 := by
  have greatest : ∀ {p : κ × α}, entries.getLast? = some p → p ∈ entries ∧ ∀ q ∈ entries, ¬ p.1 < q.1 := by
    intro p last
    obtain ⟨before, rfl⟩ := List.getLast?_eq_some_iff.1 last
    refine ⟨by simp, fun q hq => ?_⟩
    rcases List.mem_append.1 hq with hq | hq
    · exact Std.Asymm.asymm _ _ ((List.pairwise_append.1 h).2.2 q hq p (List.mem_singleton.2 rfl))
    · rw [List.mem_singleton.1 hq]
      exact fun hlt => Std.Asymm.asymm _ _ hlt hlt
  refine ⟨greatest, fun ⟨hp, top⟩ => ?_⟩
  cases last : entries.getLast? with
  | none =>
      rw [List.getLast?_eq_none_iff.1 last] at hp
      cases hp
  | some q =>
      obtain ⟨hq, topq⟩ := greatest last
      have keys : q.1 = p.1 := by
        rcases Std.Trichotomous.rel_or_eq_or_rel_swap (r := (· < ·)) (a := q.1) (b := p.1) with h | h | h
        · exact absurd h (topq p hp)
        · exact h
        · exact absurd h (top q hq)
      have values := (get?_of_mem h hq).symm.trans (keys ▸ get?_of_mem h hp)
      rw [Prod.ext keys (Option.some.inj values)]

variable [DecidableLT κ] [Trans (α := κ) (· < ·) (· < ·) (· < ·)]

theorem put_comm {entries : List (κ × α)} (h : Ascending entries) {key other : κ} (apart : key ≠ other)
    (value found : α) :
    put key value (put other found entries) = put other found (put key value entries) := by
  refine ((h.put _ _).put _ _).ext ((h.put _ _).put _ _) (fun k => ?_)
  simp only [get?_put]
  split
  · rename_i same
    rw [if_neg (fun h => apart (same.trans h.symm))]
  · rfl

theorem put_put {entries : List (κ × α)} (h : Ascending entries) (key : κ) (value found : α) :
    put key value (put key found entries) = put key value entries := by
  refine ((h.put _ _).put _ _).ext (h.put _ _) (fun k => ?_)
  simp only [get?_put]
  split <;> rfl

end Sorted

theorem Index.insert_comm {dates : List Instant} (h : Index.Ascending dates) (t u : Instant) :
    Index.insert t (Index.insert u dates) = Index.insert u (Index.insert t dates) := by
  have ascending := fun t u => Index.ascending_insert t (Index.ascending_insert u h)
  refine Sorted.keys_ext (ascending t u) (ascending u t) (fun d => ?_)
  simp only [Index.mem_insert]
  exact or_left_comm

/-- What is said about a value date at an insertion date: its value, or that it has none. -/
structure Remark where
  inserted : Instant
  date : Instant
  value : Option Float

namespace Remark

/-- A remark counts for a value date at a revision, or at any, if it was inserted up to then. -/
def Counts (x : Remark) (revision : Option Instant) (t : Instant) : Prop :=
  x.date = t ∧ ∀ r ∈ revision, x.inserted ≤ r

/-- The value that a remark gives; NaN is none. -/
def defined? (x : Remark) : Option Float :=
  x.value.filter (fun v => !v.isNaN)

theorem defined?_eq_some_iff {x : Remark} {v : Float} :
    x.defined? = some v ↔ x.value = some v ∧ v.isNaN = false := by
  rw [defined?, Option.filter_eq_some_iff, Bool.not_eq_true']

end Remark

/-- Of the remarks that count, the one with the last insertion date is in force, and of several with
    that date the one that was made last. -/
def InForce (log : List Remark) (revision : Option Instant) (t : Instant) (x : Remark) : Prop :=
  x.Counts revision t ∧ ∃ before after, log = before ++ x :: after ∧
    (∀ y ∈ before, y.Counts revision t → y.inserted ≤ x.inserted) ∧
    ∀ y ∈ after, y.Counts revision t → y.inserted < x.inserted

/-- The last remark on a value date that was made at an insertion date. -/
def latest? (log : List Remark) (t inserted : Instant) : Option Remark :=
  (log.filter (fun x => decide (x.date = t ∧ x.inserted = inserted))).getLast?

theorem latest?_concat (log : List Remark) (x : Remark) (t inserted : Instant) :
    latest? (log ++ [x]) t inserted =
      if x.date = t ∧ x.inserted = inserted then some x else latest? log t inserted := by
  rw [latest?, List.filter_append]
  split
  · rename_i same
    rw [List.filter_cons_of_pos (by simpa using same), List.filter_nil, List.getLast?_concat]
  · rename_i apart
    rw [List.filter_cons_of_neg (by simpa using apart), List.filter_nil, List.append_nil, latest?]

theorem exists_latest? {log : List Remark} {x : Remark} (hx : x ∈ log) :
    ∃ last, latest? log x.date x.inserted = some last := by
  have kept : x ∈ log.filter (fun y => decide (y.date = x.date ∧ y.inserted = x.inserted)) :=
    List.mem_filter.2 ⟨hx, by simp⟩
  exact ⟨_, List.getLast?_eq_some_getLast (List.ne_nil_of_mem kept)⟩

theorem mem_of_latest? {log : List Remark} {t inserted : Instant} {x : Remark}
    (h : latest? log t inserted = some x) : x ∈ log ∧ x.date = t ∧ x.inserted = inserted := by
  obtain ⟨hx, same⟩ := List.mem_filter.1 (List.mem_of_getLast? h)
  exact ⟨hx, of_decide_eq_true same⟩

/-- A remark is in force when none that counts was inserted after it, and none on its date at the same
    insertion date was made after it. -/
theorem inForce_iff {log : List Remark} {revision : Option Instant} {t : Instant} {x : Remark} :
    InForce log revision t x ↔ x.Counts revision t ∧ latest? log t x.inserted = some x ∧
      ∀ y ∈ log, y.Counts revision t → y.inserted ≤ x.inserted := by
  refine and_congr_right (fun counts => ⟨?_, fun ⟨last, top⟩ => ?_⟩)
  · rintro ⟨before, after, rfl, early, late⟩
    -- What comes after `x` and counts is of an earlier insertion date, so `x` is the last of its own.
    have none : after.filter (fun y => decide (y.date = t ∧ y.inserted = x.inserted)) = [] := by
      refine List.filter_eq_nil_iff.2 (fun y hy same => ?_)
      obtain ⟨date, inserted⟩ := of_decide_eq_true same
      have earlier := late y hy ⟨date, fun r hr => inserted ▸ counts.2 r hr⟩
      rw [inserted] at earlier
      exact Instant.lt_irrefl _ earlier
    refine ⟨?_, fun y hy hcounts => ?_⟩
    · rw [latest?, List.filter_append, List.filter_cons_of_pos (by simp [counts.1]), none,
        List.getLast?_concat]
    · rcases List.mem_append.1 hy with hy | hy
      · exact early y hy hcounts
      · rcases List.mem_cons.1 hy with rfl | hy
        · exact Instant.le_refl _
        · exact Instant.le_of_lt (late y hy hcounts)
  · -- The log is cut at `x`, behind which no remark has its insertion date.
    obtain ⟨earlier, filtered⟩ := List.getLast?_eq_some_iff.1 last
    obtain ⟨front, rest, rfl, -, found⟩ := List.filter_eq_append_iff.1 filtered
    obtain ⟨between, after, rfl, -, -, none⟩ := List.filter_eq_cons_iff.1 found
    refine ⟨front ++ between, after, by simp, fun y hy => top y ?_, fun y hy hcounts => ?_⟩
    · rcases List.mem_append.1 hy with hy | hy <;> simp [hy]
    · have upTo := top y (by simp [hy]) hcounts
      refine Decidable.of_not_not (fun notBefore => ?_)
      have same : y.inserted = x.inserted := by
        rcases Instant.lt_trichotomy y.inserted x.inserted with h | h | h
        · exact absurd h notBefore
        · exact h
        · exact absurd h upTo
      exact List.filter_eq_nil_iff.1 none y hy (decide_eq_true ⟨hcounts.1, same⟩)

namespace History

variable {h : History}

theorem valueAt?_empty (revision : Option Instant) : empty.valueAt? revision = none := by
  cases revision <;> rfl

/-- The version in force at a revision is the last one up to it. -/
theorem versionAt?_eq_some_iff {revision : Option Instant} {v : Instant × Option Float} :
    h.versionAt? revision = some v ↔ Sorted.get? v.1 h.versions = some v.2 ∧
      (∀ r ∈ revision, v.1 ≤ r) ∧
      ∀ u ∈ h.versions, (∀ r ∈ revision, u.1 ≤ r) → u.1 ≤ v.1 := by
  rw [Sorted.get?_eq_some_iff h.ascending]
  cases revision with
  | none =>
      rw [versionAt?, h.ascending.getLast?_eq_some_iff]
      refine and_congr_right (fun _ => ⟨fun top => ⟨by simp, fun u hu _ => top u hu⟩, fun top u hu => ?_⟩)
      exact top.2 u hu (by simp)
  | some r =>
      have picked : Sorted.Ascending (h.versions.filter (fun v => decide (v.1 ≤ r))) :=
        List.Pairwise.sublist List.filter_sublist h.ascending
      rw [versionAt?, picked.getLast?_eq_some_iff]
      simp only [List.mem_filter, decide_eq_true_eq, Option.mem_some_iff, forall_eq', and_imp, and_assoc]
      exact Iff.rfl

theorem get?_record (inserted other : Instant) (value : Option Float) :
    Sorted.get? other (h.record inserted value).versions =
      if inserted = other then some (value.filter (fun v => !v.isNaN))
      else Sorted.get? other h.versions :=
  Sorted.get?_put inserted other _ h.versions

theorem record_comm {inserted other : Instant} (apart : inserted ≠ other) (value found : Option Float) :
    (h.record inserted value).record other found = (h.record other found).record inserted value := by
  simp only [record, mk.injEq]
  exact (Sorted.put_comm h.ascending apart _ _).symm

end History

namespace StoredSeries

variable {s : StoredSeries} {log : List Remark}

def historyAt (s : StoredSeries) (t : Instant) : History :=
  (Sorted.get? t s.points).getD .empty

theorem historyAt_recordPoint (s : StoredSeries) (inserted : Instant) (p : Instant × Option Float)
    (t : Instant) : (s.recordPoint inserted p).historyAt t =
      if p.1 = t then (s.historyAt t).record inserted p.2 else s.historyAt t := by
  rw [historyAt, recordPoint, Sorted.get?_put]
  split
  · rename_i same
    rw [same, Option.getD_some, historyAt]
  · rfl

/-- A history has what was said last about its value date at each insertion date. -/
def Replays (s : StoredSeries) (log : List Remark) : Prop :=
  ∀ t inserted, Sorted.get? inserted (s.historyAt t).versions =
    (latest? log t inserted).map Remark.defined?

theorem Replays.empty : Replays {} [] :=
  fun _ _ => rfl

theorem Replays.recordPoint (h : s.Replays log) (inserted : Instant) (p : Instant × Option Float) :
    (s.recordPoint inserted p).Replays (log ++ [⟨inserted, p.1, p.2⟩]) := by
  intro t other
  rw [historyAt_recordPoint, latest?_concat]
  by_cases date : p.1 = t
  · rw [if_pos date, History.get?_record, h t other]
    by_cases same : inserted = other
    · rw [if_pos same, if_pos ⟨date, same⟩]
      rfl
    · rw [if_neg same, if_neg (fun both => same both.2)]
  · rw [if_neg date, if_neg (fun both => date both.1), h t other]

theorem Replays.recordRevision (h : s.Replays log) (inserted : Instant)
    (points : List (Instant × Option Float)) : (s.recordRevision inserted points).Replays
      (log ++ points.map (fun p => ⟨inserted, p.1, p.2⟩)) := by
  have recorded : ∀ {s : StoredSeries} {log : List Remark}, s.Replays log →
      (points.foldl (StoredSeries.recordPoint · inserted ·) s).Replays
        (log ++ points.map (fun p => ⟨inserted, p.1, p.2⟩)) := by
    induction points with
    | nil =>
        intro s log h
        rwa [List.map_nil, List.append_nil]
    | cons p rest ih =>
        intro s log h
        rw [List.map_cons, List.append_cons]
        exact ih (h.recordPoint inserted p)
  exact recorded h

/-- The value of a point at a revision is what the remark in force says. -/
theorem Replays.valueAt?_eq_some_iff (h : s.Replays log) {t : Instant} {revision : Option Instant}
    {v : Float} : (s.historyAt t).valueAt? revision = some v ↔
      ∃ x, InForce log revision t x ∧ x.defined? = some v := by
  rw [History.valueAt?, Option.bind_eq_some_iff]
  -- Every version stands for the last remark of its insertion date, and every remark has a version, so
  -- the greatest insertion dates of both are the same.
  constructor
  · rintro ⟨u, version, value⟩
    obtain ⟨found, upTo, top⟩ := History.versionAt?_eq_some_iff.1 version
    rw [h t u.1] at found
    obtain ⟨x, last, gives⟩ := Option.map_eq_some_iff.1 found
    obtain ⟨-, date, inserted⟩ := mem_of_latest? last
    refine ⟨x, inForce_iff.2 ⟨⟨date, inserted ▸ upTo⟩, inserted ▸ last, fun y hy counts => ?_⟩,
      gives.trans value⟩
    obtain ⟨later, hlater⟩ := exists_latest? hy
    rw [counts.1] at hlater
    have kept := h t y.inserted
    rw [hlater] at kept
    rw [inserted]
    exact top _ (Sorted.mem_of_get? kept) counts.2
  · rintro ⟨x, inForce, gives⟩
    obtain ⟨counts, last, top⟩ := inForce_iff.1 inForce
    refine ⟨(x.inserted, x.defined?), History.versionAt?_eq_some_iff.2 ⟨?_, counts.2, ?_⟩, gives⟩
    · rw [h t x.inserted, last, Option.map_some]
    · intro u hu upTo
      have found := h t u.1
      rw [Sorted.get?_of_mem (s.historyAt t).ascending hu] at found
      obtain ⟨y, hlast, -⟩ := Option.map_eq_some_iff.1 found.symm
      obtain ⟨hy, date, inserted⟩ := mem_of_latest? hlast
      rw [← inserted]
      exact top y hy ⟨date, inserted ▸ upTo⟩

theorem recordPoint_comm {inserted other : Instant} (apart : inserted ≠ other) (s : StoredSeries)
    (p q : Instant × Option Float) : (s.recordPoint other q).recordPoint inserted p =
      (s.recordPoint inserted p).recordPoint other q := by
  have points : ((s.recordPoint other q).recordPoint inserted p).points =
      ((s.recordPoint inserted p).recordPoint other q).points := by
    show Sorted.put p.1 (((s.recordPoint other q).historyAt p.1).record inserted p.2)
        (Sorted.put q.1 ((s.historyAt q.1).record other q.2) s.points) =
      Sorted.put q.1 (((s.recordPoint inserted p).historyAt q.1).record other q.2)
        (Sorted.put p.1 ((s.historyAt p.1).record inserted p.2) s.points)
    rw [historyAt_recordPoint, historyAt_recordPoint]
    -- On one value date the second put covers the first, and its history has both versions.
    by_cases date : p.1 = q.1
    · rw [date, if_pos rfl, if_pos rfl, Sorted.put_put s.ascending, Sorted.put_put s.ascending,
        History.record_comm apart]
    · rw [if_neg date, if_neg (Ne.symm date), Sorted.put_comm s.ascending date]
  simp only [recordPoint, mk.injEq, true_and]
  exact points

/-- Two folds that exchange with each other step by step can be done in either order. -/
theorem foldl_comm {σ α β : Type} {f : σ → α → σ} {g : σ → β → σ}
    (exchange : ∀ s a b, f (g s b) a = g (f s a) b) (s : σ) (as : List α) (bs : List β) :
    as.foldl f (bs.foldl g s) = bs.foldl g (as.foldl f s) := by
  induction as generalizing s with
  | nil => rfl
  | cons a rest ih =>
      rw [List.foldl_cons, List.foldl_cons, ← ih (f s a)]
      exact congrArg (rest.foldl f) (List.foldl_hom (f · a) (fun s b => (exchange s a b).symm)).symm

def date (inserted : Instant) (s : StoredSeries) : StoredSeries :=
  { s with insertionDates := Index.insert inserted s.insertionDates }

/-- Revisions of different insertion dates can be recorded in any order. -/
theorem recordRevision_comm (h : Index.Ascending s.insertionDates) {inserted other : Instant}
    (apart : inserted ≠ other) (ps qs : List (Instant × Option Float)) :
    (s.recordRevision inserted ps).recordRevision other qs =
      (s.recordRevision other qs).recordRevision inserted ps := by
  have dated : ∀ (inserted other : Instant) (ps : List (Instant × Option Float)) (s : StoredSeries),
      date other (ps.foldl (StoredSeries.recordPoint · inserted ·) s) =
        ps.foldl (StoredSeries.recordPoint · inserted ·) (date other s) :=
    fun inserted other ps s => (List.foldl_hom (date other) (fun _ _ => rfl)).symm
  have dates : date other (date inserted s) = date inserted (date other s) := by
    simp only [date, Index.insert_comm h other inserted]
  -- Both dates are added first; then each point of one revision passes each point of the other.
  show qs.foldl (StoredSeries.recordPoint · other ·)
      (date other (ps.foldl (StoredSeries.recordPoint · inserted ·) (date inserted s))) =
    ps.foldl (StoredSeries.recordPoint · inserted ·)
      (date inserted (qs.foldl (StoredSeries.recordPoint · other ·) (date other s)))
  rw [dated, dated, dates]
  exact foldl_comm (fun s q p => recordPoint_comm (Ne.symm apart) s q p) _ qs ps

end StoredSeries

namespace Store

/-- The calls that write to a store. -/
inductive Write where
  | insert (name : String) (inserted : Instant) (points : List (Instant × Float))
  | update (name : String) (inserted : Instant) (points : List (Instant × Option Float))
  | setInfo (name : String) (info : SeriesMeta)
  | remove (name : String)

def Write.run (store : Store) : Write → Store
  | .insert name inserted points => store.insert name inserted points
  | .update name inserted points => store.update name inserted points
  | .setInfo name info => store.setInfo name info
  | .remove name => store.remove name

/-- The log of a series after a write: remarks on it are appended, and with its removal it starts over. -/
def Write.log (name : String) (log : List Remark) : Write → List Remark
  | .insert other inserted points =>
    if other = name then log ++ points.map (fun (t, v) => ⟨inserted, t, some v⟩) else log
  | .update other inserted points =>
    if other = name then log ++ points.map (fun (t, v) => ⟨inserted, t, v⟩) else log
  | .setInfo _ _ => log
  | .remove other => if other = name then [] else log

/-- The store after some writes, from an empty one on. -/
def after (writes : List Write) : Store :=
  writes.foldl Write.run {}

/-- What was said about a series by some writes since it was last removed, first remark first. -/
def log (name : String) (writes : List Write) : List Remark :=
  writes.foldl (Write.log name) []

/-- Every series has what its log says, and the series ascend by name. -/
structure Logged (store : Store) (logs : String → List Remark) : Prop where
  ascending : Sorted.Ascending store.entries
  dated : ∀ name, ((store.find? name).getD {}).Dated
  replays : ∀ name, ((store.find? name).getD {}).Replays (logs name)

variable {store : Store} {logs : String → List Remark}

theorem Logged.empty : Logged {} (fun _ => []) :=
  ⟨.nil, fun _ => .empty, fun _ => .empty⟩

theorem Logged.modify (h : Logged store logs) (name : String) {f : StoredSeries → StoredSeries}
    {g : List Remark → List Remark} (dated : ∀ s : StoredSeries, s.Dated → (f s).Dated)
    (replays : ∀ (s : StoredSeries) log, s.Replays log → (f s).Replays (g log)) :
    Logged (store.modify name f) (fun other => if name = other then g (logs other) else logs other) := by
  refine ⟨h.ascending.put _ _, fun other => ?_, fun other => ?_⟩ <;> rw [find?_modify]
  · split
    · exact dated _ (h.dated name)
    · exact h.dated other
  · by_cases same : name = other
    · subst same
      simp only [if_true]
      exact replays _ _ (h.replays name)
    · simp only [if_neg same]
      exact h.replays other

theorem Logged.run (h : Logged store logs) (w : Write) :
    Logged (w.run store) (fun name => w.log name (logs name)) := by
  cases w with
  | insert name inserted points =>
      have values : points.map (fun p => (⟨inserted, p.1, some p.2⟩ : Remark)) =
          (points.map (fun p => (p.1, some p.2))).map (fun p => ⟨inserted, p.1, p.2⟩) := by
        rw [List.map_map]
        rfl
      simp only [Write.log, values]
      exact h.modify name (fun s hs => hs.recordRevision inserted _)
        (fun s log hs => hs.recordRevision inserted _)
  | update name inserted points =>
      exact h.modify name (fun s hs => hs.recordRevision inserted points)
        (fun s log hs => hs.recordRevision inserted points)
  | setInfo name info =>
      have kept := h.modify name (f := fun s => { s with info }) (g := id)
        (fun s hs => ⟨hs.ascending, hs.versions⟩) (fun s log hs => hs)
      simp only [id, ite_self] at kept
      exact kept
  | remove name =>
      refine ⟨h.ascending.erase name, fun other => ?_, fun other => ?_⟩
      · rw [Write.run, Store.remove, find?, Sorted.get?_erase]
        split
        · exact .empty
        · exact h.dated other
      · by_cases same : name = other
        · rw [Write.run, Store.remove, find?, Sorted.get?_erase, if_pos same.symm, Write.log, if_pos same]
          exact .empty
        · rw [Write.run, Store.remove, find?, Sorted.get?_erase, if_neg (Ne.symm same), Write.log,
            if_neg same]
          exact h.replays other

theorem logged_after (writes : List Write) : Logged (after writes) (fun name => log name writes) := by
  have run : ∀ (writes : List Write) {store : Store} {logs : String → List Remark}, Logged store logs →
      Logged (writes.foldl Write.run store) (fun name => writes.foldl (Write.log name) (logs name)) := by
    intro writes
    induction writes with
    | nil => exact fun h => h
    | cons w rest ih => exact fun h => ih (h.run w)
  exact run writes .empty

/-- A point of a series is read as its history gives it, inside the window. -/
theorem get?_bind_get? (name : String) (w : Window) (revision : Option Instant) (t : Instant) :
    (store.get? name w revision).bind (·.get? t) = if w.contains t then
      ((((store.find? name).getD {}).historyAt t).valueAt? revision).bind Series.defined?
    else none := by
  rw [get?]
  cases found : store.find? name with
  | none =>
      have silent : (({} : StoredSeries).historyAt t).valueAt? revision = none :=
        History.valueAt?_empty revision
      rw [Option.getD_none, silent, Option.bind_none, ite_self]
      rfl
  | some s =>
      rw [Option.map_some, Option.bind_some, StoredSeries.get?_read, Option.getD_some,
        StoredSeries.historyAt]
      cases Sorted.get? t s.points with
      | none => rw [Option.getD_none, History.valueAt?_empty, Option.bind_none]
      | some history => simp only [Option.bind_some, Option.getD_some]

/-- Updates at different insertion dates can be made in any order, to one series or to two. -/
theorem Logged.update_comm (h : Logged store logs) {inserted inserted' : Instant}
    (apart : inserted ≠ inserted') (name other : String) (ps qs : List (Instant × Option Float)) :
    (store.update name inserted ps).update other inserted' qs =
      (store.update other inserted' qs).update name inserted ps := by
  simp only [Store.update, Store.modify, find?, Sorted.get?_put, mk.injEq]
  by_cases same : name = other
  · subst same
    simp only [if_true, Option.getD_some, Sorted.put_put h.ascending]
    exact congrArg (Sorted.put name · store.entries)
      (StoredSeries.recordRevision_comm (h.dated name).ascending apart ps qs)
  · rw [if_neg same, if_neg (Ne.symm same), Sorted.put_comm h.ascending (Ne.symm same)]

/-- A store replays its log: it gives the value of the remark in force, inside the window. What is said
    at different insertion dates can be said in any order. -/
theorem replays_log (writes : List Write) (name : String) :
    (∀ (w : Window) (revision : Option Instant) (t : Instant) (v : Float),
      ((after writes).get? name w revision).bind (·.get? t) = some v ↔
        w.contains t = true ∧ v.isNaN = false ∧
          ∃ x, InForce (log name writes) revision t x ∧ x.value = some v) ∧
    ∀ (other : String) (inserted inserted' : Instant) (ps qs : List (Instant × Option Float)),
      inserted ≠ inserted' →
        ((after writes).update name inserted ps).update other inserted' qs =
          ((after writes).update other inserted' qs).update name inserted ps := by
  have logged := logged_after writes
  refine ⟨fun w revision t v => ?_, fun other inserted inserted' ps qs apart => ?_⟩
  · rw [get?_bind_get?]
    by_cases inside : w.contains t = true
    · rw [if_pos inside, Option.bind_eq_some_iff]
      constructor
      · rintro ⟨u, valueAt, defined⟩
        obtain ⟨x, inForce, value⟩ := (logged.replays name).valueAt?_eq_some_iff.1 valueAt
        obtain ⟨value, number⟩ := Remark.defined?_eq_some_iff.1 value
        rw [Series.defined?, if_neg (Bool.not_eq_true _ ▸ number)] at defined
        cases defined
        exact ⟨inside, number, x, inForce, value⟩
      · rintro ⟨-, number, x, inForce, value⟩
        refine ⟨v, (logged.replays name).valueAt?_eq_some_iff.2
          ⟨x, inForce, Remark.defined?_eq_some_iff.2 ⟨value, number⟩⟩, ?_⟩
        rw [Series.defined?, if_neg (Bool.not_eq_true _ ▸ number)]
    · rw [if_neg inside]
      exact ⟨fun h => absurd h.symm (Option.some_ne_none v), fun h => absurd h.1 inside⟩
  · exact logged.update_comm apart name other ps qs

/-- A value, and after it a revision of an earlier insertion date that gives the point twice. -/
def outOfOrder : List Write :=
  [.update "s" { seconds := 20, nanos := 0 } [({ seconds := 5, nanos := 0 }, some 3)],
    .insert "s" { seconds := 10, nanos := 0 }
      [({ seconds := 5, nanos := 0 }, 1), ({ seconds := 5, nanos := 0 }, 2)]]

theorem replays_log_out_of_order :
    let t : Instant := { seconds := 5, nanos := 0 }
    let early : Instant := { seconds := 10, nanos := 0 }
    let late : Instant := { seconds := 20, nanos := 0 }
    ((after outOfOrder).get? "s" .all (some early)).bind (·.get? t) = some 2 ∧
      ((after outOfOrder).get? "s" .all none).bind (·.get? t) = some 3 ∧
      ((after outOfOrder).update "s" early [(t, none)]).update "s" late [(t, some 4)] =
        ((after outOfOrder).update "s" late [(t, some 4)]).update "s" early [(t, none)] := by
  intro t early late
  obtain ⟨values, exchange⟩ := replays_log outOfOrder "s"
  refine ⟨(values .all (some early) t 2).2 ⟨by decide, by decide +kernel, ⟨early, t, some 2⟩, ?_, rfl⟩,
    (values .all none t 3).2 ⟨by decide, by decide +kernel, ⟨late, t, some 3⟩, ?_, rfl⟩,
    exchange "s" early late _ _ (by decide)⟩
  · refine ⟨⟨rfl, by simp [Instant.le_refl]⟩, [⟨late, t, some 3⟩, ⟨early, t, some 1⟩], [], rfl, ?_, by simp⟩
    intro y hy counts
    exact counts.2 early rfl
  · refine ⟨⟨rfl, by simp⟩, [], [⟨early, t, some 1⟩, ⟨early, t, some 2⟩], rfl, by simp, ?_⟩
    intro y hy _
    have before : early < late := by decide
    simp only [List.mem_cons, List.not_mem_nil, or_false] at hy
    rcases hy with rfl | rfl <;> exact before

end Store

end SeriesLang
