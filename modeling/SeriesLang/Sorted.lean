/-! # Sorted association lists

Finite maps as lists of pairs in strictly ascending order of their keys. An entry put under a key
replaces the one that was there. The order of a list is all that decides its text, so maps with the
same entries are equal.
-/

namespace SeriesLang.Sorted

variable {κ α : Type}

/-- The keys ascend strictly. -/
def Ascending [LT κ] (entries : List (κ × α)) : Prop :=
  entries.Pairwise (fun p q => p.1 < q.1)

section Lookup

variable [DecidableEq κ]

/-- Remove the entry of a key. -/
def erase (key : κ) (entries : List (κ × α)) : List (κ × α) :=
  entries.filter (fun p => p.1 ≠ key)

/-- The value of a key. -/
def get? (key : κ) (entries : List (κ × α)) : Option α :=
  (entries.find? (fun p => p.1 = key)).map Prod.snd

/-- Is there an entry for the key? -/
def contains (key : κ) (entries : List (κ × α)) : Bool :=
  entries.any (fun p => p.1 = key)

@[simp] theorem get?_nil (key : κ) : get? key ([] : List (κ × α)) = none := rfl

theorem get?_cons (key other : κ) (found : α) (rest : List (κ × α)) :
    get? key ((other, found) :: rest) = if other = key then some found else get? key rest := by
  simp only [get?, List.find?_cons]
  split <;> simp_all

theorem get?_erase (key other : κ) (entries : List (κ × α)) :
    get? other (erase key entries) = if other = key then none else get? other entries := by
  induction entries with
  | nil => simp [erase]
  | cons p rest ih =>
    obtain ⟨k, v⟩ := p
    simp only [erase, List.filter_cons] at ih ⊢
    split <;> simp only [get?_cons, ih] <;> grind

/-- Removing an entry keeps the order. -/
theorem Ascending.erase [LT κ] {entries : List (κ × α)} (h : Ascending entries) (key : κ) :
    Ascending (erase key entries) :=
  List.Pairwise.sublist List.filter_sublist h

end Lookup

section Put

variable [LT κ] [DecidableLT κ] [DecidableEq κ]

/-- Put an entry at its place. -/
def put (key : κ) (value : α) : List (κ × α) → List (κ × α)
  | [] => [(key, value)]
  | (other, found) :: rest =>
    if key < other then (key, value) :: (other, found) :: rest
    else if key = other then (key, value) :: rest
    else (other, found) :: put key value rest

/-- Change the value of a key, or give it one. -/
def alter (key : κ) (f : Option α → α) : List (κ × α) → List (κ × α)
  | [] => [(key, f none)]
  | (other, found) :: rest =>
    if key < other then (key, f none) :: (other, found) :: rest
    else if key = other then (key, f (some found)) :: rest
    else (other, found) :: alter key f rest

/-- The values that entries have under each key, in order. -/
def group (entries : List (κ × α)) : List (κ × List α) :=
  entries.foldr (fun (key, value) groups => alter key (fun values => value :: values.getD []) groups) []

/-- Put one list of entries on top of another, in order. -/
def putAll (top base : List (κ × α)) : List (κ × α) :=
  top.foldl (fun acc (key, value) => put key value acc) base

theorem mem_put {key : κ} {value : α} {p : κ × α} {entries : List (κ × α)}
    (h : p ∈ put key value entries) : p = (key, value) ∨ p ∈ entries := by
  fun_induction put key value entries <;> grind

@[simp] theorem get?_put_self (key : κ) (value : α) (entries : List (κ × α)) :
    get? key (put key value entries) = some value := by
  fun_induction put key value entries <;> simp_all [get?_cons]
  intro h
  simp_all

theorem get?_put_of_ne {key other : κ} (h : key ≠ other) (value : α) (entries : List (κ × α)) :
    get? other (put key value entries) = get? other entries := by
  fun_induction put key value entries <;> simp_all [get?_cons]

section Order

variable [Std.Trichotomous (α := κ) (· < ·)] [Trans (α := κ) (· < ·) (· < ·) (· < ·)]

/-- Putting an entry keeps the order. -/
theorem Ascending.put {entries : List (κ × α)} (h : Ascending entries) (key : κ) (value : α) :
    Ascending (put key value entries) := by
  induction entries with
  | nil => exact .cons (by simp) .nil
  | cons p rest ih =>
    obtain ⟨other, found⟩ := p
    obtain ⟨hp, hrest⟩ := List.pairwise_cons.1 h
    simp only [Sorted.put]
    split
    · rename_i hlt
      refine .cons (fun q hq => ?_) h
      rcases List.mem_cons.1 hq with rfl | hq
      · exact hlt
      · exact Trans.trans hlt (hp q hq)
    · split
      · rename_i _ heq
        subst heq
        exact .cons hp hrest
      · rename_i hlt heq
        refine .cons (fun q hq => ?_) (ih hrest)
        rcases mem_put hq with rfl | hq
        · rcases Std.Trichotomous.rel_or_eq_or_rel_swap (r := (· < ·)) (a := key) (b := other) with
            h | h | h
          · exact absurd h hlt
          · exact absurd h heq
          · exact h
        · exact hp q hq

/-- Putting entries keeps the order. -/
theorem Ascending.putAll {base : List (κ × α)} (h : Ascending base) (top : List (κ × α)) :
    Ascending (putAll top base) := by
  induction top generalizing base with
  | nil => exact h
  | cons p rest ih => exact ih (h.put p.1 p.2)

end Order

end Put

end SeriesLang.Sorted
