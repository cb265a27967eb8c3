import Mathlib.Data.List.Forall2
import SeriesLang.Query.Basic

/-! # Computations that succeed

A sequence succeeds exactly when its first part does and the rest does on its result. It fails with the
error of the part that fails.
-/

namespace SeriesLang

variable {ε α β γ : Type}

/-- Both parts of a sequence that succeeds. -/
theorem ok_of_bind {r : Except ε α} {f : α → Except ε β} {b : β} (h : r.bind f = .ok b) :
    ∃ a, r = .ok a ∧ f a = .ok b := by
  cases r with
  | error e => cases h
  | ok a => exact ⟨a, rfl, h⟩

theorem ok_of_map {r : Except ε α} {f : α → β} {b : β} (h : r.map f = .ok b) :
    ∃ a, r = .ok a ∧ f a = b := by
  cases r with
  | error e => cases h
  | ok a =>
      cases h
      exact ⟨a, rfl, rfl⟩

theorem error_of_map {r : Except ε α} {f : α → β} {err : ε} (h : r.map f = .error err) :
    r = .error err := by
  cases r with
  | error e =>
      cases h
      rfl
  | ok a => cases h

theorem ok_of_else {c : Prop} [Decidable c] {e : ε} {r : Except ε α} {a : α}
    (h : (if c then .error e else r) = .ok a) : ¬c ∧ r = .ok a := by
  split at h
  · cases h
  · rename_i no
    exact ⟨no, h⟩

theorem ok_of_then {c : Prop} [Decidable c] {e : ε} {r : Except ε α} {a : α}
    (h : (if c then r else .error e) = .ok a) : c ∧ r = .ok a := by
  split at h
  · rename_i yes
    exact ⟨yes, h⟩
  · cases h

theorem toOption_eq_some_iff {r : Except ε α} {a : α} : r.toOption = some a ↔ r = .ok a := by
  cases r with
  | error e => simp [Except.toOption]
  | ok b => simp [Except.toOption]

theorem foldlM_cons_ok {f : β → α → Except ε β} {b c : β} {a : α} (h : f b a = .ok c)
    (as : List α) : (a :: as).foldlM f b = as.foldlM f c := by
  rw [List.foldlM_cons, h]
  rfl

theorem foldlM_append_ok {f : β → α → Except ε β} {b c : β} {as : List α}
    (h : as.foldlM f b = .ok c) (bs : List α) : (as ++ bs).foldlM f b = bs.foldlM f c := by
  rw [List.foldlM_append, h]
  rfl

/-- What the same elements are related to in two ways is related in a third one. -/
theorem forall₂_of_common {P : α → β → Prop} {Q : α → γ → Prop} {R : β → γ → Prop} {as : List α}
    {bs : List β} {cs : List γ} (first : List.Forall₂ P as bs) (second : List.Forall₂ Q as cs)
    (both : ∀ a ∈ as, ∀ b c, P a b → Q a c → R b c) : List.Forall₂ R bs cs := by
  induction first generalizing cs with
  | nil =>
      cases second
      exact .nil
  | cons head _ ih =>
      cases second with
      | cons head' others' =>
          exact .cons (both _ List.mem_cons_self _ _ head head')
            (ih others' fun a ha => both a (List.mem_cons_of_mem _ ha))

/-- A sequence that succeeds has one result for each element. -/
theorem mapM_ok_iff {f : α → Except ε β} {as : List α} {bs : List β} :
    as.mapM f = .ok bs ↔ List.Forall₂ (fun a b => f a = .ok b) as bs := by
  induction as generalizing bs with
  | nil => simp [pure, Except.pure, eq_comm]
  | cons a as ih =>
      rw [List.mapM_cons]
      constructor
      · intro h
        obtain ⟨b, first, h⟩ := ok_of_bind h
        obtain ⟨rest, others, h⟩ := ok_of_bind h
        cases h
        exact .cons first (ih.1 others)
      · rintro (_ | ⟨first, others⟩)
        rw [first, ih.2 others]
        rfl

/-- Each result of a sequence that succeeds comes from one element, and each element has a result. -/
theorem mem_of_mapM {f : α → Except ε β} {as : List α} {bs : List β} (h : as.mapM f = .ok bs) :
    (∀ b ∈ bs, ∃ a ∈ as, f a = .ok b) ∧ ∀ a ∈ as, ∃ b ∈ bs, f a = .ok b := by
  have each := mapM_ok_iff.1 h
  clear h
  induction each with
  | nil => exact ⟨nofun, nofun⟩
  | cons first _ ih =>
      refine ⟨List.forall_mem_cons.2 ⟨⟨_, List.mem_cons_self, first⟩, fun c hc => ?_⟩,
        List.forall_mem_cons.2 ⟨⟨_, List.mem_cons_self, first⟩, fun c hc => ?_⟩⟩
      · obtain ⟨d, hd, found⟩ := ih.1 c hc
        exact ⟨d, List.mem_cons_of_mem _ hd, found⟩
      · obtain ⟨d, hd, found⟩ := ih.2 c hc
        exact ⟨d, List.mem_cons_of_mem _ hd, found⟩

theorem getElem?_of_mapM {f : α → Except ε β} {as : List α} {bs : List β} (h : as.mapM f = .ok bs)
    {i : Nat} {a : α} (ha : as[i]? = some a) : ∃ b, f a = .ok b ∧ bs[i]? = some b := by
  obtain ⟨length, each⟩ := List.forall₂_iff_get.1 (mapM_ok_iff.1 h)
  obtain ⟨inside, rfl⟩ := List.getElem?_eq_some_iff.1 ha
  exact ⟨_, each i inside (length ▸ inside), List.getElem?_eq_getElem _⟩

/-- What the results of a sequence that succeeds tell of its elements. -/
theorem map_of_mapM {f : α → Except ε β} {g : β → γ} {k : α → γ} {as : List α} {bs : List β}
    (h : as.mapM f = .ok bs) (same : ∀ a b, f a = .ok b → g b = k a) : bs.map g = as.map k := by
  have each := mapM_ok_iff.1 h
  clear h
  induction each with
  | nil => rfl
  | cons first _ ih => rw [List.map_cons, List.map_cons, same _ _ first, ih]

/-- A sequence in which every element has a result. -/
theorem mapM_eq_map {f : α → Except ε β} {g : α → β} {as : List α} (h : ∀ a ∈ as, f a = .ok (g a)) :
    as.mapM f = .ok (as.map g) :=
  mapM_ok_iff.2 (List.forall₂_map_right_iff.2 (List.forall₂_same.2 h))

/-- Results that are there as soon as a check passes. -/
theorem mapM_check_ok_iff {check : α → Except ε Unit} {f : α → β} {as : List α} {bs : List β} :
    as.mapM (fun a => (check a).map (fun _ => f a)) = .ok bs ↔
      (∀ a ∈ as, check a = .ok ()) ∧ bs = as.map f := by
  have passes : ∀ a b, (check a).map (fun _ => f a) = .ok b ↔ check a = .ok () ∧ f a = b := by
    intro a b
    cases check a <;> simp [Except.map]
  simp only [mapM_ok_iff, passes, List.forall₂_and_left]
  rw [← List.forall₂_map_left_iff, List.forall₂_eq_eq_eq, eq_comm]

/-- The part of a sequence that fails. -/
theorem error_of_bind {r : Except ε α} {f : α → Except ε β} {err : ε} (h : r.bind f = .error err) :
    r = .error err ∨ ∃ a, r = .ok a ∧ f a = .error err := by
  cases r with
  | error e =>
      cases h
      exact .inl rfl
  | ok a => exact .inr ⟨a, rfl, h⟩

theorem error_of_foldlM {f : β → α → Except ε β} {b : β} {as : List α} {err : ε}
    (h : as.foldlM f b = .error err) : ∃ a ∈ as, ∃ b, f b a = .error err := by
  induction as generalizing b with
  | nil => cases h
  | cons a as ih =>
      rw [List.foldlM_cons] at h
      rcases error_of_bind h with first | ⟨c, -, rest⟩
      · exact ⟨a, List.mem_cons_self, b, first⟩
      · obtain ⟨other, hother, failed⟩ := ih rest
        exact ⟨other, List.mem_cons_of_mem _ hother, failed⟩

theorem error_of_mapM {f : α → Except ε β} {as : List α} {err : ε} (h : as.mapM f = .error err) :
    ∃ a ∈ as, f a = .error err := by
  induction as with
  | nil => cases h
  | cons a as ih =>
      rw [List.mapM_cons] at h
      rcases error_of_bind h with first | ⟨b, -, rest⟩
      · exact ⟨a, List.mem_cons_self, first⟩
      · rcases error_of_bind rest with others | ⟨bs, -, last⟩
        · obtain ⟨other, hother, failed⟩ := ih others
          exact ⟨other, List.mem_cons_of_mem _ hother, failed⟩
        · cases last

/-- Computations that have the same result, or both fail, with whatever errors. -/
def Alike (r r' : Except ε α) : Prop :=
  r.toOption = r'.toOption

namespace Alike

variable {r r' : Except ε α}

theorem ok (h : Alike r r') {a : α} (hr : r = .ok a) : r' = .ok a :=
  toOption_eq_some_iff.1 (h.symm.trans (toOption_eq_some_iff.2 hr))

theorem bind (h : Alike r r') {f f' : α → Except ε β} (rest : ∀ a, Alike (f a) (f' a)) :
    Alike (r.bind f) (r'.bind f') := by
  cases r with
  | ok a =>
      rw [h.ok rfl]
      exact rest a
  | error e =>
      cases r' with
      | ok a => cases h
      | error e' => rfl

theorem ite {c : Prop} [Decidable c] {q q' : Except ε α} (yes : Alike r r') (no : Alike q q') :
    Alike (if c then r else q) (if c then r' else q') := by
  split
  · exact yes
  · exact no

theorem mapM {f f' : α → Except ε β} (each : ∀ a, Alike (f a) (f' a)) (as : List α) :
    Alike (as.mapM f) (as.mapM f') := by
  induction as with
  | nil => rfl
  | cons a as ih =>
      rw [List.mapM_cons, List.mapM_cons]
      exact (each a).bind fun _ => ih.bind fun _ => rfl

end Alike

namespace Query

variable {catalog : Catalog}

/-- Both parts of a sequence of queries that succeeds. -/
theorem ok_of_run_bind {q : Query α} {f : α → Query β} {b : β}
    (h : (q.bind f).run catalog = .ok b) :
    ∃ a, q.run catalog = .ok a ∧ (f a).run catalog = .ok b := by
  rw [run_bind] at h
  exact ok_of_bind h

theorem run_bind_ok {q : Query α} {f : α → Query β} {a : α} (h : q.run catalog = .ok a) :
    (q.bind f).run catalog = (f a).run catalog := by
  rw [run_bind, h]
  rfl

/-- The part of a sequence of queries that fails. -/
theorem error_of_run_bind {q : Query α} {f : α → Query β} {err : Error}
    (h : (q.bind f).run catalog = .error err) :
    q.run catalog = .error err ∨ ∃ a, q.run catalog = .ok a ∧ (f a).run catalog = .error err := by
  rw [run_bind] at h
  exact error_of_bind h

@[simp] theorem run_ofExcept (r : Except Error α) : (ofExcept r).run catalog = r := by
  cases r <;> rfl

theorem run_ofExcept_bind {r : Except Error α} {a : α} (h : r = .ok a) (f : α → Query β) :
    ((ofExcept r).bind f).run catalog = (f a).run catalog := by
  rw [h]
  rfl

end Query

end SeriesLang
