import SeriesLang.Sorted

/-! # Sorted association lists as maps

Membership, look-up and order decide each other: an ascending list is known once its look-ups are.
-/

namespace SeriesLang.Sorted

variable {κ α β : Type}

/-- Lists that are in one strict order are equal if the same stands in them. -/
theorem ext_mem {R : α → α → Prop} (asymm : ∀ {a b}, R a b → ¬R b a) {as bs : List α}
    (ha : as.Pairwise R) (hb : bs.Pairwise R) (same : ∀ a, a ∈ as ↔ a ∈ bs) : as = bs := by
  have nodup : ∀ {l : List α}, l.Pairwise R → l.Nodup := by
    intro l h
    refine h.imp ?_
    rintro a _ before rfl
    exact asymm before before
  exact ((List.perm_ext_iff_of_nodup (nodup ha) (nodup hb)).2 same).eq_of_pairwise
    (fun _ _ _ _ before behind => absurd behind (asymm before)) ha hb

variable [DecidableEq κ]

theorem get?_eq_none_iff {key : κ} {entries : List (κ × α)} :
    get? key entries = none ↔ ∀ p ∈ entries, p.1 ≠ key := by
  simp [get?, List.find?_eq_none]

theorem mem_of_get? {key : κ} {value : α} {entries : List (κ × α)}
    (h : get? key entries = some value) : (key, value) ∈ entries := by
  obtain ⟨p, hp, rfl⟩ := Option.map_eq_some_iff.1 h
  have hkey := List.find?_some hp
  simp only [decide_eq_true_eq] at hkey
  rw [← hkey]
  exact List.mem_of_find?_eq_some hp

theorem contains_eq_isSome (key : κ) (entries : List (κ × α)) :
    contains key entries = (get? key entries).isSome := by
  rw [contains, get?, Option.isSome_map, Bool.eq_iff_iff, List.find?_isSome, List.any_eq_true]

theorem contains_iff_mem {key : κ} {entries : List (κ × α)} :
    contains key entries = true ↔ key ∈ entries.map Prod.fst := by
  simp [contains]

theorem get?_append (key : κ) (as bs : List (κ × α)) :
    get? key (as ++ bs) = (get? key as).or (get? key bs) := by
  rw [get?, get?, get?, List.find?_append, Option.map_or]

section Order

variable [LT κ] [Std.Asymm (α := κ) (· < ·)]

theorem get?_of_mem {key : κ} {value : α} {entries : List (κ × α)} (h : Ascending entries)
    (hmem : (key, value) ∈ entries) : get? key entries = some value := by
  induction entries with
  | nil => cases hmem
  | cons p rest ih =>
      obtain ⟨other, found⟩ := p
      obtain ⟨before, hrest⟩ := List.pairwise_cons.1 h
      rw [get?_cons]
      rcases List.mem_cons.1 hmem with heq | hmem
      · cases heq
        rw [if_pos rfl]
      · have hlt : other < key := before _ hmem
        rw [if_neg (fun heq => ?_), ih hrest hmem]
        rw [heq] at hlt
        exact Std.Asymm.asymm _ _ hlt hlt

/-- A key in front of all others is not found. -/
theorem get?_of_lt {key : κ} {entries : List (κ × α)} (h : ∀ p ∈ entries, key < p.1) :
    get? key entries = none := by
  refine get?_eq_none_iff.2 fun p hp heq => ?_
  have hlt := h p hp
  rw [heq] at hlt
  exact Std.Asymm.asymm _ _ hlt hlt

theorem get?_eq_some_iff {key : κ} {value : α} {entries : List (κ × α)} (h : Ascending entries) :
    get? key entries = some value ↔ (key, value) ∈ entries :=
  ⟨mem_of_get?, get?_of_mem h⟩

omit [DecidableEq κ] in
/-- Ascending keys are different. -/
theorem Ascending.nodup {entries : List (κ × α)} (h : Ascending entries) :
    (entries.map Prod.fst).Nodup := by
  refine List.pairwise_map.2 (List.Pairwise.imp ?_ h)
  intro p q hlt heq
  rw [heq] at hlt
  exact Std.Asymm.asymm _ _ hlt hlt

omit [DecidableEq κ] in
/-- Ascending keys are known once it is known which ones they are. -/
theorem keys_ext {as bs : List κ} (ha : as.Pairwise (· < ·)) (hb : bs.Pairwise (· < ·))
    (same : ∀ key, key ∈ as ↔ key ∈ bs) : as = bs :=
  ext_mem (Std.Asymm.asymm _ _) ha hb same

/-- Ascending lists with the same look-ups are equal. -/
theorem Ascending.ext {as bs : List (κ × α)} (ha : Ascending as) (hb : Ascending bs)
    (same : ∀ key, get? key as = get? key bs) : as = bs := by
  refine ext_mem (fun {p q} => Std.Asymm.asymm p.1 q.1) ha hb fun ⟨key, value⟩ => ?_
  rw [← get?_eq_some_iff ha, ← get?_eq_some_iff hb, same]

omit [DecidableEq κ] [Std.Asymm (α := κ) (· < ·)] in
theorem ascending_filterMap {f : κ × α → Option (κ × β)} {entries : List (κ × α)}
    (h : Ascending entries) (keys : ∀ p q, f p = some q → q.1 = p.1) : Ascending (entries.filterMap f) :=
  List.Pairwise.filterMap _ (fun p q hlt a ha b hb => by rwa [keys p a ha, keys q b hb]) h

/-- In ascending entries that are picked and changed each under its own key. -/
theorem get?_filterMap {f : κ × α → Option (κ × β)} {entries : List (κ × α)} (h : Ascending entries)
    (keys : ∀ p q, f p = some q → q.1 = p.1) (key : κ) :
    get? key (entries.filterMap f) =
      (get? key entries).bind (fun value => (f (key, value)).map Prod.snd) := by
  induction entries with
  | nil => rfl
  | cons p rest ih =>
      obtain ⟨other, value⟩ := p
      obtain ⟨before, hrest⟩ := List.pairwise_cons.1 h
      rw [get?_cons]
      by_cases heq : other = key
      · subst heq
        have none : get? other (rest.filterMap f) = none := by
          refine get?_of_lt fun q hq => ?_
          obtain ⟨r, hr, hf⟩ := List.mem_filterMap.1 hq
          exact keys r q hf ▸ before r hr
        cases hf : f (other, value) with
        | none => rw [List.filterMap_cons_none hf, none, if_pos rfl, Option.bind_some, hf, Option.map_none]
        | some q =>
            obtain ⟨k, found⟩ := q
            cases keys _ _ hf
            rw [List.filterMap_cons_some hf, get?_cons, if_pos rfl, if_pos rfl, Option.bind_some, hf,
              Option.map_some]
      · rw [if_neg heq, ← ih hrest]
        cases hf : f (other, value) with
        | none => rw [List.filterMap_cons_none hf]
        | some q =>
            obtain ⟨k, found⟩ := q
            cases keys _ _ hf
            rw [List.filterMap_cons_some hf, get?_cons, if_neg heq]

theorem get?_pick {keep : κ × α → Bool} {entries : List (κ × α)} (h : Ascending entries) (key : κ) :
    get? key (entries.filter keep) = (get? key entries).filter (fun value => keep (key, value)) := by
  rw [← List.filterMap_eq_filter, get?_filterMap h]
  · cases get? key entries with
    | none => rfl
    | some value =>
        rw [Option.bind_some, Option.filter_some, Option.guard_apply]
        split <;> rfl
  · intro p q h
    rw [(Option.guard_eq_some_iff.1 h).1]

variable [DecidableLT κ]

/-- An entry behind all others goes to the end. -/
theorem put_last {key : κ} {value : α} {entries : List (κ × α)} (h : ∀ p ∈ entries, p.1 < key) :
    put key value entries = entries ++ [(key, value)] := by
  induction entries with
  | nil => rfl
  | cons p rest ih =>
      obtain ⟨other, found⟩ := p
      have hlt : other < key := h _ List.mem_cons_self
      have apart : key ≠ other := by
        rintro rfl
        exact Std.Asymm.asymm _ _ hlt hlt
      rw [put, if_neg (Std.Asymm.asymm _ _ hlt), if_neg apart,
        ih (fun q hq => h q (List.mem_cons_of_mem _ hq)), List.cons_append]

end Order

theorem get?_put [LT κ] [DecidableLT κ] (key other : κ) (value : α) (entries : List (κ × α)) :
    get? other (put key value entries) = if key = other then some value else get? other entries := by
  split
  · rename_i heq
    rw [← heq, get?_put_self]
  · rename_i apart
    exact get?_put_of_ne apart value entries

theorem contains_put [LT κ] [DecidableLT κ] (key other : κ) (value : α) (entries : List (κ × α)) :
    contains other (put key value entries) = (decide (key = other) || contains other entries) := by
  rw [contains_eq_isSome, contains_eq_isSome, get?_put]
  split <;> simp_all

section Keys

theorem get?_of_nodup {key : κ} {value : α} {entries : List (κ × α)}
    (h : (entries.map Prod.fst).Nodup) (hmem : (key, value) ∈ entries) :
    get? key entries = some value := by
  induction entries with
  | nil => cases hmem
  | cons p rest ih =>
      obtain ⟨other, found⟩ := p
      obtain ⟨apart, hrest⟩ := List.nodup_cons.1 h
      rw [get?_cons]
      rcases List.mem_cons.1 hmem with heq | hmem
      · cases heq
        rw [if_pos rfl]
      · have later : key ∈ rest.map Prod.fst := List.mem_map_of_mem hmem
        have different : other ≠ key := by
          rintro rfl
          exact apart later
        rw [if_neg different, ih hrest hmem]

/-- The order of entries with different keys does not matter. -/
theorem get?_perm {entries entries' : List (κ × α)} (h : entries.Perm entries')
    (nodup : (entries.map Prod.fst).Nodup) (key : κ) : get? key entries = get? key entries' := by
  cases found : get? key entries with
  | none =>
      rw [get?_eq_none_iff] at found
      exact (get?_eq_none_iff.2 fun p hp => found p (h.mem_iff.2 hp)).symm
  | some value =>
      have moved : (entries'.map Prod.fst).Nodup := (h.map Prod.fst).nodup_iff.1 nodup
      exact (get?_of_nodup moved (h.mem_iff.1 (mem_of_get? found))).symm

end Keys

section PutAll

variable [LT κ] [DecidableLT κ]

theorem mem_putAll {top base : List (κ × α)} {p : κ × α} (h : p ∈ putAll top base) :
    p ∈ top ∨ p ∈ base := by
  induction top generalizing base with
  | nil => exact .inr h
  | cons q top ih =>
      rcases ih h with later | old
      · exact .inl (List.mem_cons_of_mem _ later)
      · rcases mem_put old with rfl | old
        · exact .inl List.mem_cons_self
        · exact .inr old

theorem contains_putAll {key : κ} {top base : List (κ × α)} :
    contains key (putAll top base) = true ↔
      key ∈ top.map Prod.fst ∨ contains key base = true := by
  induction top generalizing base with
  | nil =>
      show contains key base = true ↔ _
      simp
  | cons p top ih =>
      show contains key (putAll top (put p.1 p.2 base)) = true ↔ _
      rw [ih, contains_put, Bool.or_eq_true, decide_eq_true_eq, List.map_cons, List.mem_cons,
        eq_comm (a := key), ← or_assoc, or_comm (b := p.1 = key)]

theorem get?_putAll {top : List (κ × α)} (h : (top.map Prod.fst).Nodup) (base : List (κ × α))
    (key : κ) : get? key (putAll top base) = (get? key top).or (get? key base) := by
  induction top generalizing base with
  | nil => rfl
  | cons p top ih =>
      obtain ⟨other, value⟩ := p
      obtain ⟨apart, htop⟩ := List.nodup_cons.1 h
      show get? key (putAll top (put other value base)) = _
      rw [ih htop, get?_put, get?_cons]
      split
      · rename_i heq
        have absent : get? key top = none := by
          rw [get?_eq_none_iff]
          rintro q hq rfl
          exact apart (List.mem_map.2 ⟨q, hq, heq.symm⟩)
        rw [absent]
        rfl
      · rfl

/-- What is put on top hides what is below. -/
theorem get?_putAll_top (top base : List (κ × α)) (key : κ) :
    get? key (putAll top base) = (get? key (putAll top [])).or (get? key base) := by
  induction top generalizing base with
  | nil => rfl
  | cons p top ih =>
      obtain ⟨other, value⟩ := p
      show get? key (putAll top (put other value base)) = (get? key (putAll top (put other value []))).or _
      rw [ih (put other value base), ih (put other value []), get?_put, get?_put, Option.or_assoc]
      split <;> rfl

variable [Std.Asymm (α := κ) (· < ·)]

/-- Ascending entries that are put one after the other stay as they are. -/
theorem putAll_of_ascending {top base : List (κ × α)} (h : Ascending (base ++ top)) :
    putAll top base = base ++ top := by
  induction top generalizing base with
  | nil => exact (List.append_nil base).symm
  | cons p top ih =>
      obtain ⟨key, value⟩ := p
      have before : ∀ q ∈ base, q.1 < key := fun q hq =>
        (List.pairwise_append.1 h).2.2 q hq _ List.mem_cons_self
      have last : put key value base = base ++ [(key, value)] := put_last before
      show putAll top (put key value base) = _
      rw [last, ih (by simpa using h), List.append_assoc, List.singleton_append]

variable [Std.Trichotomous (α := κ) (· < ·)] [Trans (α := κ) (· < ·) (· < ·) (· < ·)]

/-- Entries with different keys may be put in any order. -/
theorem putAll_perm {top top' : List (κ × α)} (h : top.Perm top') (nodup : (top.map Prod.fst).Nodup) :
    putAll top [] = putAll top' [] := by
  have moved : (top'.map Prod.fst).Nodup := (h.map Prod.fst).nodup_iff.1 nodup
  refine Ascending.ext (Ascending.putAll .nil top) (Ascending.putAll .nil top') fun key => ?_
  rw [get?_putAll nodup, get?_putAll moved, get?_perm h nodup]

end PutAll

section Group

variable [LT κ] [DecidableLT κ]

theorem mem_alter {key : κ} {f : Option α → α} {p : κ × α} {entries : List (κ × α)}
    (h : p ∈ alter key f entries) : p.1 = key ∨ p ∈ entries := by
  fun_induction alter key f entries <;> grind

theorem mem_group {p : κ × List α} {entries : List (κ × α)} (h : p ∈ group entries) :
    ∃ q ∈ entries, q.1 = p.1 := by
  induction entries with
  | nil => cases h
  | cons q rest ih =>
      rcases mem_alter h with heq | h
      · exact ⟨q, List.mem_cons_self, heq.symm⟩
      · obtain ⟨r, hr, heq⟩ := ih h
        exact ⟨r, List.mem_cons_of_mem _ hr, heq⟩

variable [Std.Trichotomous (α := κ) (· < ·)] [Trans (α := κ) (· < ·) (· < ·) (· < ·)]

/-- Changing an entry keeps the order. -/
theorem Ascending.alter {entries : List (κ × α)} (h : Ascending entries) (key : κ) (f : Option α → α) :
    Ascending (alter key f entries) := by
  induction entries with
  | nil => exact .cons (by simp) .nil
  | cons p rest ih =>
      obtain ⟨other, found⟩ := p
      obtain ⟨before, hrest⟩ := List.pairwise_cons.1 h
      rw [Sorted.alter]
      split
      · rename_i hlt
        refine .cons (fun q hq => ?_) h
        rcases List.mem_cons.1 hq with rfl | hq
        · exact hlt
        · exact Trans.trans hlt (before q hq)
      · split
        · rename_i same
          subst same
          exact .cons before hrest
        · rename_i hlt apart
          refine .cons (fun q hq => ?_) (ih hrest)
          rcases mem_alter hq with heq | hq
          · rcases Std.Trichotomous.rel_or_eq_or_rel_swap (r := (· < ·)) (a := key) (b := other) with
              h | h | h
            · exact absurd h hlt
            · exact absurd h apart
            · exact heq ▸ h
          · exact before q hq

theorem ascending_group (entries : List (κ × α)) : Ascending (group entries) := by
  induction entries with
  | nil => exact .nil
  | cons p rest ih => exact ih.alter _ _

variable [Std.Asymm (α := κ) (· < ·)]

omit [Std.Trichotomous (α := κ) (· < ·)] in
theorem get?_alter {entries : List (κ × α)} (h : Ascending entries) (key other : κ)
    (f : Option α → α) : get? other (alter key f entries) =
      if key = other then some (f (get? key entries)) else get? other entries := by
  induction entries with
  | nil => rw [alter, get?_cons, get?_nil, get?_nil]
  | cons p rest ih =>
      obtain ⟨here, found⟩ := p
      obtain ⟨before, hrest⟩ := List.pairwise_cons.1 h
      rw [alter]
      split
      · rename_i hlt
        have absent : get? key ((here, found) :: rest) = none :=
          get?_of_lt (List.forall_mem_cons.2 ⟨hlt, fun q hq => Trans.trans hlt (before q hq)⟩)
        rw [absent, get?_cons]
      · split
        · rename_i same
          subst same
          simp only [get?_cons, if_pos]
          split <;> rfl
        · rename_i apart
          have different : ¬here = key := fun heq => apart heq.symm
          rw [get?_cons, ih hrest, get?_cons, get?_cons, if_neg different]
          by_cases mine : key = other
          · rw [if_pos mine, if_neg (fun heq => different (heq.trans mine.symm)), if_pos mine]
          · rw [if_neg mine, if_neg mine]

/-- A group has the values of its key, in order. -/
theorem get?_group (key : κ) (entries : List (κ × α)) : get? key (group entries) =
    if key ∈ entries.map Prod.fst then
      some ((entries.filter (fun p => decide (p.1 = key))).map Prod.snd) else none := by
  induction entries with
  | nil => rfl
  | cons p rest ih =>
      obtain ⟨other, value⟩ := p
      have step : group ((other, value) :: rest) =
          alter other (fun values => value :: values.getD []) (group rest) := rfl
      rw [step, get?_alter (ascending_group rest)]
      by_cases same : other = key
      · subst same
        have there : other ∈ ((other, value) :: rest).map Prod.fst := List.mem_cons_self
        rw [if_pos rfl, ih, if_pos there, List.filter_cons_of_pos (by simp), List.map_cons]
        split
        · rfl
        · rename_i absent
          have none : rest.filter (fun p => decide (p.1 = other)) = [] := by
            rw [List.filter_eq_nil_iff]
            intro q hq heq
            exact absent (List.mem_map.2 ⟨q, hq, of_decide_eq_true heq⟩)
          rw [none]
          rfl
      · rw [if_neg same, ih, List.filter_cons_of_neg (by simpa using same)]
        have apart : key ≠ other := fun heq => same heq.symm
        simp only [List.map_cons, List.mem_cons, apart, false_or]

end Group

end SeriesLang.Sorted
