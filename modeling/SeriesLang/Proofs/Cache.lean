import Mathlib.Data.Set.Card
import SeriesLang.Cache
import SeriesLang.Proofs.Sorted

/-! # Least recent use

The entries of a cache stand in the order of their last use, and the log of its uses tells which ones are
left: a key stays until it is invalidated, all is cleared, or an insertion leaves as many other keys in use
after it as there is room for.
-/

namespace SeriesLang.Cache

variable {κ α : Type}

/-- Something that is done with a cache. -/
inductive Step (κ α : Type) where
  | insert (key : κ) (value : α)
  | get (key : κ)
  /-- A look-up with what is computed on a miss. -/
  | compute (key : κ) (result : Except Error α)
  | invalidate (key : κ)
  | clear

/-- What became of a step. A look-up that misses leaves no trace, unless a value is computed and kept. -/
inductive Event (κ α : Type) where
  | inserted (key : κ) (value : α)
  | hit (key : κ)
  | invalidated (key : κ)
  | cleared

/-- The key that is inserted or hit. -/
def Event.used? : Event κ α → Option κ
  | .inserted key _ | .hit key => some key
  | .invalidated _ | .cleared => none

section Run

variable [DecidableEq κ]

/-- Do a step: what became of it, and the cache after it. -/
def act (c : Cache κ α) : Step κ α → List (Event κ α) × Cache κ α
  | .insert key value => ([.inserted key value], c.insert key value)
  | .get key =>
    match c.get? key with
    | (some _, c) => ([.hit key], c)
    | (none, c) => ([], c)
  | .compute key result =>
    match c.getOrCompute key result with
    | (.ok (_, .hit), c) => ([.hit key], c)
    | (.ok (value, .miss), c) => ([.inserted key value], c)
    | (.error _, c) => ([], c)
  | .invalidate key => ([.invalidated key], (c.invalidate key).2)
  | .clear => ([.cleared], c.clear)

/-- Do steps one after the other: their log, and the cache after them. -/
def run (c : Cache κ α) : List (Step κ α) → List (Event κ α) × Cache κ α
  | [] => ([], c)
  | step :: steps => ((c.act step).1 ++ ((c.act step).2.run steps).1, ((c.act step).2.run steps).2)

end Run

/-! ### What a log says -/

/-- What a log has behind an event of some kind. -/
def After (log : List (Event κ α)) (kind : Event κ α → Prop) (newer : List (Event κ α)) : Prop :=
  ∃ older e, log = older ++ e :: newer ∧ kind e

/-- The value with which a key was inserted last. -/
def LastInserted (log : List (Event κ α)) (key : κ) (value : α) : Prop :=
  ∃ newer, After log (· = .inserted key value) newer ∧ ∀ other, .inserted key other ∉ newer

/-- What a log has behind the last use of a key. -/
def SinceUse (log : List (Event κ α)) (key : κ) (newer : List (Event κ α)) : Prop :=
  After log (·.used? = some key) newer ∧ ∀ e ∈ newer, e.used? ≠ some key

/-- A key was inserted or hit, and not invalidated since. -/
def InUse (log : List (Event κ α)) (key : κ) : Prop :=
  ∃ newer, After log (·.used? = some key) newer ∧ .invalidated key ∉ newer

/-- Since its last use a key was not invalidated, nothing was cleared, and no insertion brought the number of
    keys that came into use up to the capacity. -/
structure Stays (capacity : Nat) (key : κ) (newer : List (Event κ α)) : Prop where
  valid : .invalidated key ∉ newer
  uncleared : .cleared ∉ newer
  room : ∀ upTo other value later, newer = upTo ++ .inserted other value :: later →
    {k | InUse (upTo ++ [.inserted other value]) k}.ncard < capacity

/-- A key is still there with the value that it was given last. -/
def Remembers (capacity : Nat) (log : List (Event κ α)) (key : κ) (value : α) : Prop :=
  LastInserted log key value ∧ ∃ newer, SinceUse log key newer ∧ Stays capacity key newer

section Concat

variable {log newer : List (Event κ α)} {e : Event κ α} {key : κ} {value : α} {capacity : Nat}

/-- An element of a list that was appended to is the new one or was there before. -/
theorem concat_eq_append_cons_iff {β : Type} {as front back : List β} {a b : β} :
    as ++ [a] = front ++ b :: back ↔ (as = front ∧ a = b ∧ back = []) ∨
      ∃ back', back = back' ++ [a] ∧ as = front ++ b :: back' := by
  constructor
  · intro h
    rcases List.eq_nil_or_concat back with rfl | ⟨back', last, rfl⟩
    · obtain ⟨rfl, rest⟩ := List.append_inj' h rfl
      exact .inl ⟨rfl, List.singleton_inj.1 rest, rfl⟩
    · rw [List.concat_eq_append, ← List.cons_append, ← List.append_assoc] at h
      obtain ⟨rfl, rest⟩ := List.append_inj' h rfl
      exact .inr ⟨back', by rw [List.concat_eq_append, List.singleton_inj.1 rest], rfl⟩
  · rintro (⟨rfl, rfl, rfl⟩ | ⟨back', rfl, rfl⟩)
    · rfl
    · rw [List.append_assoc, List.cons_append]

theorem after_concat {kind : Event κ α → Prop} :
    After (log ++ [e]) kind newer ↔
      (newer = [] ∧ kind e) ∨ ∃ newer', newer = newer' ++ [e] ∧ After log kind newer' := by
  constructor
  · rintro ⟨older, x, heq, hx⟩
    rcases concat_eq_append_cons_iff.1 heq with ⟨rfl, rfl, rfl⟩ | ⟨newer', rfl, rfl⟩
    · exact .inl ⟨rfl, hx⟩
    · exact .inr ⟨newer', rfl, older, x, rfl, hx⟩
  · rintro (⟨rfl, he⟩ | ⟨newer', rfl, older, x, rfl, hx⟩)
    · exact ⟨log, e, rfl, he⟩
    · exact ⟨older, x, by simp, hx⟩

theorem inUse_concat :
    InUse (log ++ [e]) key ↔ e.used? = some key ∨ (InUse log key ∧ e ≠ .invalidated key) := by
  constructor
  · rintro ⟨newer, after, valid⟩
    rcases after_concat.1 after with ⟨-, used⟩ | ⟨newer', rfl, earlier⟩
    · exact .inl used
    · simp only [List.mem_append, List.mem_singleton, not_or] at valid
      exact .inr ⟨⟨newer', earlier, valid.1⟩, Ne.symm valid.2⟩
  · rintro (used | ⟨⟨newer, after, valid⟩, apart⟩)
    · exact ⟨[], after_concat.2 (.inl ⟨rfl, used⟩), by simp⟩
    · refine ⟨newer ++ [e], after_concat.2 (.inr ⟨newer, rfl, after⟩), ?_⟩
      simp [valid, Ne.symm apart]

theorem not_inUse_nil : ¬InUse ([] : List (Event κ α)) key := by
  rintro ⟨newer, ⟨older, e, heq, -⟩, -⟩
  simp at heq

theorem lastInserted_concat : LastInserted (log ++ [e]) key value ↔
    e = .inserted key value ∨ ((∀ v, e ≠ .inserted key v) ∧ LastInserted log key value) := by
  constructor
  · rintro ⟨newer, after, last⟩
    rcases after_concat.1 after with ⟨-, inserted⟩ | ⟨newer', rfl, earlier⟩
    · exact .inl inserted
    · refine .inr ⟨fun v same => last v (by simp [same]), newer', earlier, fun v hv => last v (by simp [hv])⟩
  · rintro (inserted | ⟨other, newer, after, last⟩)
    · exact ⟨[], after_concat.2 (.inl ⟨rfl, inserted⟩), by simp⟩
    · refine ⟨newer ++ [e], after_concat.2 (.inr ⟨newer, rfl, after⟩), fun v hv => ?_⟩
      rcases List.mem_append.1 hv with hv | hv
      · exact last v hv
      · exact other v (List.mem_singleton.1 hv).symm

theorem LastInserted.unique {value' : α} (h : LastInserted log key value) (h' : LastInserted log key value') :
    value = value' := by
  induction log using List.reverseRecOn with
  | nil =>
      obtain ⟨newer, ⟨older, e, heq, -⟩, -⟩ := h
      simp at heq
  | append_singleton log e ih =>
      rcases lastInserted_concat.1 h with rfl | ⟨other, before⟩
      · rcases lastInserted_concat.1 h' with same | ⟨other, -⟩
        · exact (Event.inserted.inj same).2
        · exact absurd rfl (other value)
      · rcases lastInserted_concat.1 h' with same | ⟨-, before'⟩
        · exact absurd same (other value')
        · exact ih before before'

theorem sinceUse_concat :
    SinceUse (log ++ [e]) key newer ↔ (e.used? = some key ∧ newer = []) ∨
      (e.used? ≠ some key ∧ ∃ newer', newer = newer' ++ [e] ∧ SinceUse log key newer') := by
  constructor
  · rintro ⟨after, unused⟩
    rcases after_concat.1 after with ⟨rfl, used⟩ | ⟨newer', rfl, earlier⟩
    · exact .inl ⟨used, rfl⟩
    · exact .inr ⟨unused e (by simp), newer', rfl, earlier, fun x hx => unused x (by simp [hx])⟩
  · rintro (⟨used, rfl⟩ | ⟨unused, newer', rfl, after, before⟩)
    · exact ⟨after_concat.2 (.inl ⟨rfl, used⟩), by simp⟩
    · refine ⟨after_concat.2 (.inr ⟨newer', rfl, after⟩), fun x hx => ?_⟩
      rcases List.mem_append.1 hx with hx | hx
      · exact before x hx
      · exact List.mem_singleton.1 hx ▸ unused

theorem Stays.nil : Stays capacity key ([] : List (Event κ α)) :=
  ⟨by simp, by simp, by simp⟩

theorem stays_concat : Stays capacity key (newer ++ [e]) ↔ Stays capacity key newer ∧
    e ≠ .invalidated key ∧ e ≠ .cleared ∧
      ∀ other value, e = .inserted other value → {k | InUse (newer ++ [e]) k}.ncard < capacity := by
  constructor
  · rintro ⟨valid, uncleared, room⟩
    simp only [List.mem_append, List.mem_singleton, not_or] at valid uncleared
    refine ⟨⟨valid.1, uncleared.1, ?_⟩, Ne.symm valid.2, Ne.symm uncleared.2, ?_⟩
    · rintro upTo other value later rfl
      exact room upTo other value (later ++ [e]) (by simp)
    · rintro other value rfl
      exact room newer other value [] rfl
  · rintro ⟨⟨valid, uncleared, room⟩, apart, full, last⟩
    refine ⟨by simp [valid, Ne.symm apart], by simp [uncleared, Ne.symm full], fun upTo other value later heq => ?_⟩
    rcases concat_eq_append_cons_iff.1 heq with ⟨rfl, rfl, rfl⟩ | ⟨later', rfl, rfl⟩
    · exact last other value rfl
    · exact room upTo other value later' rfl

end Concat

/-! ### What a cache keeps -/

variable [DecidableEq κ]

/-- What became of a step that left a trace, and the cache after it. -/
inductive Effect (c : Cache κ α) : Event κ α → Cache κ α → Prop
  | inserted (key : κ) (value : α) : Effect c (.inserted key value) (c.insert key value)
  | hit {key : κ} {value : α} (found : (key, value) ∈ c.entries) :
      Effect c (.hit key) { c with entries := without key c.entries ++ [(key, value)] }
  | invalidated (key : κ) : Effect c (.invalidated key) { c with entries := without key c.entries }
  | cleared : Effect c .cleared c.clear

variable {c c' : Cache κ α} {log newer : List (Event κ α)} {e : Event κ α} {key : κ} {value : α} {n : Nat}

theorem get?_cases (c : Cache κ α) (key : κ) :
    (∃ value, (key, value) ∈ c.entries ∧ c.get? key =
      (some value, { c with entries := without key c.entries ++ [(key, value)] })) ∨
    (key ∉ c.entries.map Prod.fst ∧ c.get? key = (none, c)) := by
  have peek : c.peek? key = Sorted.get? key c.entries := rfl
  cases found : Sorted.get? key c.entries with
  | some value =>
      refine .inl ⟨value, Sorted.mem_of_get? found, ?_⟩
      rw [get?, peek, found]
  | none =>
      refine .inr ⟨fun mem => ?_, by rw [get?, peek, found]⟩
      obtain ⟨p, hp, rfl⟩ := List.mem_map.1 mem
      exact Sorted.get?_eq_none_iff.1 found p hp rfl

/-- A step leaves no trace and nothing changed, or one event with its effect. -/
theorem act_cases (c : Cache κ α) (step : Step κ α) :
    c.act step = ([], c) ∨ ∃ e c', c.act step = ([e], c') ∧ c.Effect e c' := by
  cases step with
  | insert key value => exact .inr ⟨_, _, rfl, .inserted key value⟩
  | get key =>
      rcases c.get?_cases key with ⟨value, found, hit⟩ | ⟨-, miss⟩
      · exact .inr ⟨_, _, by rw [act, hit], .hit found⟩
      · exact .inl (by rw [act, miss])
  | compute key result =>
      rcases c.get?_cases key with ⟨value, found, hit⟩ | ⟨-, miss⟩
      · exact .inr ⟨_, _, by rw [act, getOrCompute, hit], .hit found⟩
      · cases result with
        | ok value => exact .inr ⟨_, _, by rw [act, getOrCompute, miss], .inserted key value⟩
        | error err => exact .inl (by rw [act, getOrCompute, miss])
  | invalidate key => exact .inr ⟨_, _, rfl, .invalidated key⟩
  | clear => exact .inr ⟨_, _, rfl, .cleared⟩

/-- These entries have the keys that came into use. -/
def Behind (newer : List (Event κ α)) (back : List (κ × α)) : Prop :=
  ∀ key, key ∈ back.map Prod.fst ↔ InUse newer key

/-- A log tells the entries of a cache: each has its last value and stands in front of those that came into
    use after it, and none is missing. -/
structure Logged (n : Nat) (log : List (Event κ α)) (c : Cache κ α) : Prop where
  capacity : c.capacity = n
  nodup : (c.entries.map Prod.fst).Nodup
  size_le : c.size ≤ n
  held : ∀ {front key value back}, c.entries = front ++ (key, value) :: back →
    LastInserted log key value ∧ ∃ newer, SinceUse log key newer ∧ Stays n key newer ∧ Behind newer back
  kept : ∀ {key newer}, SinceUse log key newer → Stays n key newer →
    ∃ front value back, c.entries = front ++ (key, value) :: back ∧ Behind newer back

theorem mem_keys_without {key other : κ} {entries : List (κ × α)} :
    other ∈ (without key entries).map Prod.fst ↔ other ∈ entries.map Prod.fst ∧ other ≠ key := by
  simp only [without, List.mem_map, List.mem_filter, decide_eq_true_eq]
  constructor
  · rintro ⟨p, ⟨hp, apart⟩, rfl⟩
    exact ⟨⟨p, hp, rfl⟩, apart⟩
  · rintro ⟨⟨p, hp, rfl⟩, apart⟩
    exact ⟨p, ⟨hp, apart⟩, rfl⟩

theorem nodup_without {entries : List (κ × α)} (h : (entries.map Prod.fst).Nodup) (key : κ) :
    ((without key entries).map Prod.fst).Nodup :=
  List.Nodup.sublist (List.filter_sublist.map Prod.fst) h

theorem without_append_cons {front back : List (κ × α)} {other : κ} (apart : other ≠ key) (value : α) :
    without key (front ++ (other, value) :: back) =
      without key front ++ (other, value) :: without key back := by
  simp [without, apart]

/-- An entry that is left stood between what is left on its sides. -/
theorem of_without_eq {entries front back : List (κ × α)} {other : κ} {value : α}
    (h : without key entries = front ++ (other, value) :: back) :
    other ≠ key ∧ ∃ front' back', entries = front' ++ (other, value) :: back' ∧ without key back' = back := by
  obtain ⟨front', rest, rfl, -, h⟩ := List.filter_eq_append_iff.1 h
  obtain ⟨skipped, back', rfl, -, apart, h⟩ := List.filter_eq_cons_iff.1 h
  exact ⟨by simpa using apart, front' ++ skipped, back', by simp, h⟩

theorem length_without_lt {entries : List (κ × α)} (h : (key, value) ∈ entries) :
    (without key entries).length < entries.length :=
  List.length_filter_lt_length_iff_exists.2 ⟨(key, value), h, by simp⟩

/-! ### Where an entry stands

A key that is inserted or hit is put last, and what is over the capacity is given up at the front.
-/

theorem size_insert_le (c : Cache κ α) (key : κ) (value : α) : (c.insert key value).size ≤ c.capacity := by
  rw [size, insert, List.length_drop]
  omega

theorem nodup_last {entries : List (κ × α)} (h : (entries.map Prod.fst).Nodup) (key : κ) (value : α) :
    ((without key entries ++ [(key, value)]).map Prod.fst).Nodup := by
  rw [List.map_append, List.nodup_append]
  refine ⟨nodup_without h key, by simp, fun k hk other hother => ?_⟩
  rw [List.map_cons, List.map_nil, List.mem_singleton] at hother
  exact hother ▸ (mem_keys_without.1 hk).2

theorem nodup_insert (h : (c.entries.map Prod.fst).Nodup) (key : κ) (value : α) :
    ((c.insert key value).entries.map Prod.fst).Nodup := by
  rw [insert, List.map_drop]
  exact (nodup_last h key value).sublist (List.drop_sublist _ _)

omit [DecidableEq κ] in
theorem nodup_behind {entries front back : List (κ × α)} {p : κ × α} (h : (entries.map Prod.fst).Nodup)
    (split : entries = front ++ p :: back) : (back.map Prod.fst).Nodup := by
  rw [split, List.map_append, List.map_cons] at h
  exact (List.nodup_append.1 h).2.1.of_cons

/-- Behind an entry stands the key that was put last, and what stood there before. -/
theorem of_insert_eq {front back : List (κ × α)} {k : κ} {v : α}
    (h : (c.insert key value).entries = front ++ (k, v) :: back) :
    (k = key ∧ v = value ∧ back = []) ∨ (k ≠ key ∧ ∃ front' back',
      c.entries = front' ++ (k, v) :: back' ∧ back = without key back' ++ [(key, value)]) := by
  have whole := (List.take_append_drop _ _).symm.trans (congrArg _ h)
  rw [← List.append_assoc] at whole
  rcases concat_eq_append_cons_iff.1 whole with ⟨-, same, rfl⟩ | ⟨rest, rfl, kept⟩
  · cases same
    exact .inl ⟨rfl, rfl, rfl⟩
  · obtain ⟨apart, front', back', split, rfl⟩ := of_without_eq kept
    exact .inr ⟨apart, front', back', split, rfl⟩

theorem insert_eq_concat (room : 1 ≤ c.capacity) (key : κ) (value : α) :
    ∃ front, (c.insert key value).entries = front ++ [(key, value)] := by
  refine ⟨_, List.drop_append_of_le_length ?_⟩
  rw [List.length_append, List.length_singleton]
  omega

/-- An entry stays where nothing is given up, or where there is room for it and all behind it. -/
theorem insert_eq {front back : List (κ × α)} {k : κ} {v : α} (split : c.entries = front ++ (k, v) :: back)
    (apart : k ≠ key) (room : (without key c.entries).length < c.capacity ∨
      (without key back).length + 1 < c.capacity) (value : α) :
    ∃ front', (c.insert key value).entries = front' ++ (k, v) :: (without key back ++ [(key, value)]) := by
  have whole : without key c.entries ++ [(key, value)] =
      without key front ++ (k, v) :: (without key back ++ [(key, value)]) := by
    rw [split, without_append_cons apart, List.append_assoc, List.cons_append]
  have length := congrArg List.length whole
  simp only [List.length_append, List.length_cons, List.length_nil] at length
  refine ⟨_, (congrArg (List.drop _) whole).trans (List.drop_append_of_le_length ?_)⟩
  simp only [List.length_append, List.length_cons, List.length_nil]
  omega

/-- A hit moves an entry as putting it again would. -/
theorem hit_eq_insert (found : (key, value) ∈ c.entries) (size_le : c.size ≤ c.capacity) :
    { c with entries := without key c.entries ++ [(key, value)] } = c.insert key value := by
  have fewer := length_without_lt found
  have none : (without key c.entries ++ [(key, value)]).length - c.capacity = 0 := by
    rw [List.length_append, List.length_singleton]
    rw [size] at size_le
    omega
  rw [insert, none, List.drop_zero]

theorem Behind.invalidated {back : List (κ × α)} (h : Behind newer back) (key : κ) :
    Behind (newer ++ [.invalidated key]) (without key back) := by
  intro k
  rw [mem_keys_without, h k, inUse_concat]
  simp [Event.used?, eq_comm]

theorem Behind.used {back : List (κ × α)} (h : Behind newer back) (used : e.used? = some key) (value : α) :
    Behind (newer ++ [e]) (without key back ++ [(key, value)]) := by
  intro k
  have valid : e ≠ .invalidated k := by
    rintro rfl
    cases used
  rw [List.map_append, List.mem_append, mem_keys_without, h k, inUse_concat, used]
  by_cases same : k = key
  · simp [same]
  · simp [same, valid, Ne.symm same]

theorem Behind.ncard_eq {back : List (κ × α)} (h : Behind newer back) (nodup : (back.map Prod.fst).Nodup) :
    {k | InUse newer k}.ncard = back.length := by
  have same : {k | InUse newer k} = ((back.map Prod.fst).toFinset : Set κ) := by
    ext k
    rw [Finset.mem_coe, List.mem_toFinset]
    exact (h k).symm
  rw [same, Set.ncard_coe_finset, List.toFinset_card_of_nodup nodup, List.length_map]

namespace Logged

omit [DecidableEq κ] in
theorem create (capacity : Nat) :
    Logged (Limits.clampCacheEntries capacity) ([] : List (Event κ α)) (create capacity) where
  capacity := rfl
  nodup := .nil
  size_le := Nat.zero_le _
  held h := by simp [Cache.create] at h
  kept h := by
    obtain ⟨⟨older, x, heq, -⟩, -⟩ := h
    simp at heq

/-- A key that is used goes to the end, and what is over the capacity goes at the front. -/
theorem used (h : Logged n log c) (room : 1 ≤ n) (used : e.used? = some key)
    (last : LastInserted (log ++ [e]) key value)
    (full : (without key c.entries).length < n ∨ e = .inserted key value) :
    Logged n (log ++ [e]) (c.insert key value) := by
  have size_le : (c.insert key value).size ≤ n := h.capacity ▸ c.size_insert_le key value
  have nodup := nodup_insert h.nodup key value
  have unused : ∀ {k}, k ≠ key → e.used? ≠ some k := by
    intro k apart same
    exact apart (Option.some.inj (same.symm.trans used))
  refine ⟨h.capacity, nodup, size_le, ?_, ?_⟩
  · intro front k v back split
    rcases of_insert_eq split with ⟨rfl, rfl, rfl⟩ | ⟨apart, front', back', before, rfl⟩
    · exact ⟨last, [], sinceUse_concat.2 (.inl ⟨used, rfl⟩), .nil, fun k => by simp [not_inUse_nil]⟩
    · obtain ⟨lastInserted, newer, since, stays, behind⟩ := h.held before
      have behind := behind.used used value
      refine ⟨lastInserted_concat.2 (.inr ⟨fun v same => unused apart (same ▸ rfl), lastInserted⟩), newer ++ [e],
        sinceUse_concat.2 (.inr ⟨unused apart, newer, rfl, since⟩), stays_concat.2 ⟨stays, ?_, ?_, ?_⟩, behind⟩
      · rintro rfl
        cases used
      · rintro rfl
        cases used
      · intro other found _
        rw [behind.ncard_eq (nodup_behind nodup split)]
        rw [size, split, List.length_append, List.length_cons] at size_le
        omega
  · intro k newer since stays
    rcases sinceUse_concat.1 since with ⟨same, rfl⟩ | ⟨different, newer, rfl, earlier⟩
    · cases used.symm.trans same
      obtain ⟨front, entries⟩ := insert_eq_concat (h.capacity ▸ room) key value
      exact ⟨front, value, [], entries, fun k => by simp [not_inUse_nil]⟩
    · have apart : k ≠ key := fun same => different (same ▸ used)
      obtain ⟨stays, -, -, few⟩ := stays_concat.1 stays
      obtain ⟨front, v, back, split, behind⟩ := h.kept earlier stays
      have behind := behind.used used value
      have fits : (without key c.entries).length < c.capacity ∨ (without key back).length + 1 < c.capacity := by
        rw [h.capacity]
        refine full.imp_right fun inserted => ?_
        have counted := few key value inserted
        rwa [behind.ncard_eq (nodup_last (nodup_behind h.nodup split) key value), List.length_append] at counted
      obtain ⟨front', entries⟩ := insert_eq split apart fits value
      exact ⟨front', v, _, entries, behind⟩

theorem invalidated (h : Logged n log c) (key : κ) :
    Logged n (log ++ [.invalidated key]) { c with entries := without key c.entries } where
  capacity := h.capacity
  nodup := nodup_without h.nodup key
  size_le := (List.length_filter_le _ _).trans h.size_le
  held split := by
    obtain ⟨apart, front', back', before, rfl⟩ := of_without_eq split
    obtain ⟨lastInserted, newer, since, stays, behind⟩ := h.held before
    refine ⟨lastInserted_concat.2 (.inr ⟨nofun, lastInserted⟩), newer ++ [.invalidated key],
      sinceUse_concat.2 (.inr ⟨nofun, newer, rfl, since⟩),
      stays_concat.2 ⟨stays, fun same => ?_, nofun, nofun⟩, behind.invalidated key⟩
    exact apart (Event.invalidated.inj same).symm
  kept since stays := by
    rcases sinceUse_concat.1 since with ⟨same, -⟩ | ⟨-, newer, rfl, earlier⟩
    · cases same
    · obtain ⟨stays, valid, -⟩ := stays_concat.1 stays
      obtain ⟨front, v, back, split, behind⟩ := h.kept earlier stays
      refine ⟨without key front, v, without key back, ?_, behind.invalidated key⟩
      exact (congrArg (without key) split).trans
        (without_append_cons (fun same => valid (congrArg Event.invalidated same.symm)) v)

omit [DecidableEq κ] in
theorem cleared (h : Logged n log c) : Logged n (log ++ [.cleared]) c.clear where
  capacity := h.capacity
  nodup := .nil
  size_le := Nat.zero_le n
  held split := by simp [clear] at split
  kept since stays := by
    rcases sinceUse_concat.1 since with ⟨same, -⟩ | ⟨-, newer, rfl, -⟩
    · cases same
    · exact absurd rfl (stays_concat.1 stays).2.2.1

/-- What became of a step goes to the end of the log. -/
theorem effect (h : Logged n log c) (room : 1 ≤ n) (effect : c.Effect e c') : Logged n (log ++ [e]) c' := by
  cases effect with
  | inserted key value => exact h.used room rfl (lastInserted_concat.2 (.inl rfl)) (.inr rfl)
  | @hit key value found =>
      rw [hit_eq_insert found (h.capacity ▸ h.size_le)]
      obtain ⟨front, back, split⟩ := List.append_of_mem found
      refine h.used room rfl (lastInserted_concat.2 (.inr ⟨nofun, (h.held split).1⟩)) (.inl ?_)
      exact (length_without_lt found).trans_le h.size_le
  | invalidated key => exact h.invalidated key
  | cleared => exact h.cleared

theorem run (h : Logged n log c) (room : 1 ≤ n) (steps : List (Step κ α)) :
    Logged n (log ++ (c.run steps).1) (c.run steps).2 := by
  induction steps generalizing log c with
  | nil => simpa [Cache.run] using h
  | cons step steps ih =>
      rw [Cache.run]
      rcases c.act_cases step with silent | ⟨e, c', acted, effect⟩
      · rw [silent]
        exact ih h
      · rw [acted, ← List.append_assoc]
        exact ih (h.effect room effect)

omit [DecidableEq κ] in
/-- The entries of a cache are those that its log remembers. -/
theorem mem_entries_iff (h : Logged n log c) : (key, value) ∈ c.entries ↔ Remembers n log key value := by
  constructor
  · intro mem
    obtain ⟨front, back, split⟩ := List.append_of_mem mem
    obtain ⟨last, newer, since, stays, -⟩ := h.held split
    exact ⟨last, newer, since, stays⟩
  · rintro ⟨last, newer, since, stays⟩
    obtain ⟨front, found, back, split, -⟩ := h.kept since stays
    rw [split, last.unique (h.held split).1]
    exact List.mem_append_cons_self

end Logged

theorem get?_eq_some_iff (h : (c.entries.map Prod.fst).Nodup) :
    (c.get? key).1 = some value ↔ (key, value) ∈ c.entries := by
  rcases c.get?_cases key with ⟨found, mem, hit⟩ | ⟨absent, miss⟩
  · rw [hit, Option.some_inj]
    refine ⟨fun same => same ▸ mem, fun other => ?_⟩
    exact Option.some.inj ((Sorted.get?_of_nodup h mem).symm.trans (Sorted.get?_of_nodup h other))
  · rw [miss]
    exact iff_of_false nofun fun mem => absent (List.mem_map_of_mem mem)

theorem getOrCompute_hit_iff (result : Except Error α) :
    (c.getOrCompute key result).1 = .ok (value, .hit) ↔ (c.get? key).1 = some value := by
  unfold getOrCompute
  rcases c.get?_cases key with ⟨found, -, hit⟩ | ⟨-, miss⟩
  · simp [hit]
  · cases result <;> simp [miss]

theorem getOrCompute_error {result : Except Error α} {err : Error}
    (h : (c.getOrCompute key result).1 = .error err) : result = .error err ∧ (c.getOrCompute key result).2 = c := by
  unfold getOrCompute at h ⊢
  rcases c.get?_cases key with ⟨found, -, hit⟩ | ⟨-, miss⟩
  · simp [hit] at h
  · cases result with
    | ok value => simp [miss] at h
    | error other =>
        simp only [miss, Except.error.injEq] at h ⊢
        exact ⟨h, trivial⟩

theorem one_le_clampCacheEntries (value : Int) : 1 ≤ Limits.clampCacheEntries value := by
  unfold Limits.clampCacheEntries Limits.clamp Limits.maxCacheEntries
  omega

/-- A cache never grows over its capacity, which is at least one. A look-up finds the last value of a key, and
    finds it exactly when the key was inserted and, since its last use, was not invalidated, nothing was
    cleared and no insertion left as many other keys in use as the capacity. A computation that fails changes
    nothing. -/
theorem least_recently_used (capacity : Nat) (steps : List (Step κ α)) :
    let log := ((create capacity).run steps).1
    let c := ((create capacity).run steps).2
    let n := Limits.clampCacheEntries capacity
    (1 ≤ n ∧ c.size ≤ n) ∧
    (∀ key value, ((c.get? key).1 = some value ↔ Remembers n log key value) ∧
      ∀ result, ((c.getOrCompute key result).1 = .ok (value, .hit) ↔ Remembers n log key value)) ∧
    ∀ key result err, (c.getOrCompute key result).1 = .error err →
      result = .error err ∧ (c.getOrCompute key result).2 = c := by
  intro log c n
  have room := one_le_clampCacheEntries capacity
  have logged : Logged n log c := (Logged.create capacity).run room steps
  have found : ∀ key value, (c.get? key).1 = some value ↔ Remembers n log key value :=
    fun key value => (get?_eq_some_iff logged.nodup).trans logged.mem_entries_iff
  refine ⟨⟨room, logged.size_le⟩, fun key value => ⟨found key value, fun result => ?_⟩, fun key result err => ?_⟩
  · exact (getOrCompute_hit_iff result).trans (found key value)
  · exact getOrCompute_error

example : (((create 2 : Cache Nat Nat).run
    [.insert 1 10, .insert 2 20, .get 1, .insert 3 30]).2.entries) = [(1, 10), (3, 30)] := by decide

end SeriesLang.Cache
