import SeriesLang.Expr.Rename
import SeriesLang.Proofs.Expr.RoundTrip

/-! # Renamed expressions

A renaming puts one name in the place of another wherever a series is read by it, and changes nothing else.
A tree that can be written can still be written afterwards.
-/

namespace SeriesLang.Expr

theorem renameArgs_eq_map (old new : String) (args : List Expr) :
    renameArgs old new args = args.map (renameSeries old new) := by
  induction args with
  | nil => rfl
  | cons e rest ih => rw [renameArgs, ih, List.map_cons]

theorem renameKwargs_eq_map (old new : String) (kwargs : List (String × Expr)) :
    renameKwargs old new kwargs = kwargs.map (fun p => (p.1, renameSeries old new p.2)) := by
  induction kwargs with
  | nil => rfl
  | cons p rest ih => rw [renameKwargs, ih, List.map_cons]

theorem mem_renameFirst {old new : String} {args : List Expr} {e : Expr}
    (h : e ∈ renameFirst old new args) :
    e = .literal (.str new) ∨ ∃ arg ∈ args, e = renameSeries old new arg := by
  cases args with
  | nil => cases h
  | cons first rest =>
      rw [renameFirst, renameArgs_eq_map] at h
      rcases List.mem_cons.1 h with rfl | h
      · split
        · exact .inl rfl
        · exact .inr ⟨first, List.mem_cons_self, rfl⟩
      · obtain ⟨arg, harg, rfl⟩ := List.mem_map.1 h
        exact .inr ⟨arg, List.mem_cons_of_mem _ harg, rfl⟩

/-- The arguments of an application after a series was renamed in it. -/
def renamedArgs (old new op : String) (args : List Expr) : List Expr :=
  if op = "series" then renameFirst old new args else renameArgs old new args

theorem renameSeries_call (old new op : String) (args : List Expr) (kwargs : List (String × Expr)) :
    renameSeries old new (.call ⟨op, args, kwargs⟩) =
      .call ⟨op, renamedArgs old new op args, renameKwargs old new kwargs⟩ := rfl

theorem mem_renamedArgs {old new op : String} {args : List Expr} {e : Expr}
    (h : e ∈ renamedArgs old new op args) :
    e = .literal (.str new) ∨ ∃ arg ∈ args, e = renameSeries old new arg := by
  unfold renamedArgs at h
  split at h
  · exact mem_renameFirst h
  · rw [renameArgs_eq_map] at h
    obtain ⟨arg, harg, rfl⟩ := List.mem_map.1 h
    exact .inr ⟨arg, harg, rfl⟩

theorem length_renamedArgs (old new op : String) (args : List Expr) :
    (renamedArgs old new op args).length = args.length := by
  unfold renamedArgs
  split
  · cases args with
    | nil => rfl
    | cons e rest => simp [renameFirst, renameArgs_eq_map]
  · simp [renameArgs_eq_map]

theorem map_fst_renameKwargs (old new : String) (kwargs : List (String × Expr)) :
    (renameKwargs old new kwargs).map Prod.fst = kwargs.map Prod.fst := by
  rw [renameKwargs_eq_map, List.map_map]
  rfl

/-- What a tree becomes when a series gets another name. The name stands in the place of the old one
    wherever an application reads the series by it; all else is as it was, keywords included. -/
inductive Swapped (old new : String) : Expr → Expr → Prop
  | literal (l : Literal) : Swapped old new (.literal l) (.literal l)
  | symbol (name : String) : Swapped old new (.symbol name) (.symbol name)
  | read {e args args' kwargs kwargs'} (named : e.text? = some old)
      (positional : List.Forall₂ (Swapped old new) args args')
      (keys : kwargs'.map Prod.fst = kwargs.map Prod.fst)
      (values : List.Forall₂ (Swapped old new) (kwargs.map Prod.snd) (kwargs'.map Prod.snd)) :
      Swapped old new (.call ⟨"series", e :: args, kwargs⟩)
        (.call ⟨"series", .literal (.str new) :: args', kwargs'⟩)
  | call {op args args' kwargs kwargs'}
      (unnamed : Application.seriesName? (⟨op, args, kwargs⟩ : Call) ≠ some old)
      (positional : List.Forall₂ (Swapped old new) args args')
      (keys : kwargs'.map Prod.fst = kwargs.map Prod.fst)
      (values : List.Forall₂ (Swapped old new) (kwargs.map Prod.snd) (kwargs'.map Prod.snd)) :
      Swapped old new (.call ⟨op, args, kwargs⟩) (.call ⟨op, args', kwargs'⟩)

mutual

theorem swapped_renameSeries (old new : String) : (e : Expr) → Swapped old new e (renameSeries old new e)
  | .literal l => .literal l
  | .symbol name => .symbol name
  | .call ⟨op, args, kwargs⟩ => by
      have keys := map_fst_renameKwargs old new kwargs
      have values := swapped_renameKwargs old new kwargs
      have positional := swapped_renameArgs old new args
      rw [renameSeries_call, renamedArgs]
      split
      · rename_i series
        subst series
        cases args with
        | nil => exact .call (by simp [Application.seriesName?]) .nil keys values
        | cons e rest =>
            rw [renameArgs] at positional
            cases positional with
            | cons first others =>
                rw [renameFirst]
                split
                · rename_i named
                  exact .read named others keys values
                · rename_i unnamed
                  exact .call (by simpa [Application.seriesName?] using unnamed) (.cons first others)
                    keys values
      · rename_i other
        exact .call (by simp [Application.seriesName?, other]) positional keys values

theorem swapped_renameArgs (old new : String) :
    (es : List Expr) → List.Forall₂ (Swapped old new) es (renameArgs old new es)
  | [] => .nil
  | e :: rest => .cons (swapped_renameSeries old new e) (swapped_renameArgs old new rest)

theorem swapped_renameKwargs (old new : String) : (es : List (String × Expr)) →
    List.Forall₂ (Swapped old new) (es.map Prod.snd) ((renameKwargs old new es).map Prod.snd)
  | [] => .nil
  | (_, e) :: rest => .cons (swapped_renameSeries old new e) (swapped_renameKwargs old new rest)

end

/-- What a name becomes when a series gets another one. -/
def swapName (old new name : String) : String :=
  if name = old then new else name

theorem text?_renameSeries (old new : String) (e : Expr) : (renameSeries old new e).text? = e.text? := by
  cases e <;> rfl

theorem seriesName?_renamed (old new op : String) (args : List Expr) (kwargs kwargs' : List (String × Expr)) :
    Application.seriesName? (⟨op, renamedArgs old new op args, kwargs'⟩ : Call) =
      (Application.seriesName? (⟨op, args, kwargs⟩ : Call)).map (swapName old new) := by
  unfold Application.seriesName? renamedArgs
  dsimp only
  split
  · cases args with
    | nil => rfl
    | cons e rest =>
        simp only [renameFirst, List.head?_cons, Option.bind_some]
        split
        · rename_i named
          rw [named]
          simp [swapName, text?]
        · rename_i unnamed
          rw [text?_renameSeries]
          cases text : e.text? with
          | none => rfl
          | some name =>
              rw [text, Option.some.injEq] at unnamed
              rw [Option.map_some, swapName, if_neg unnamed]
  · rfl

/-- What stands for a text reads nothing. -/
theorem calls_of_text? {e : Expr} {text : String} (h : e.text? = some text) : e.calls = [] := by
  cases e with
  | literal | symbol => rfl
  | call => cases h

mutual

/-- A tree reads under the new name what it read under the old one. -/
theorem seriesNames_renameSeries (old new : String) : (e : Expr) →
    (renameSeries old new e).seriesNames = e.seriesNames.map (swapName old new)
  | .literal _ => rfl
  | .symbol _ => rfl
  | .call ⟨op, args, kwargs⟩ => by
      have positional : (callsOfArgs (renamedArgs old new op args)).filterMap Application.seriesName? =
          ((callsOfArgs args).filterMap Application.seriesName?).map (swapName old new) := by
        have all := namesOfArgs_renameArgs old new args
        unfold renamedArgs
        split
        · cases args with
          | nil => rfl
          | cons e rest =>
              rw [renameFirst]
              split
              · rename_i named
                have others := namesOfArgs_renameArgs old new rest
                rw [callsOfArgs, callsOfArgs, calls_of_text? named]
                exact others
              · exact all
        · exact all
      have self := seriesName?_renamed old new op args kwargs (renameKwargs old new kwargs)
      rw [renameSeries_call, seriesNames, seriesNames, calls, calls, List.filterMap_cons,
        List.filterMap_cons, self, List.filterMap_append, List.filterMap_append, positional,
        namesOfKwargs_renameKwargs old new kwargs]
      cases Application.seriesName? (⟨op, args, kwargs⟩ : Call) <;> simp

theorem namesOfArgs_renameArgs (old new : String) : (es : List Expr) →
    (callsOfArgs (renameArgs old new es)).filterMap Application.seriesName? =
      ((callsOfArgs es).filterMap Application.seriesName?).map (swapName old new)
  | [] => rfl
  | e :: rest => by
      have first := seriesNames_renameSeries old new e
      unfold seriesNames at first
      rw [renameArgs, callsOfArgs, callsOfArgs, List.filterMap_append, List.filterMap_append,
        List.map_append, first, namesOfArgs_renameArgs old new rest]

theorem namesOfKwargs_renameKwargs (old new : String) : (es : List (String × Expr)) →
    (callsOfKwargs (renameKwargs old new es)).filterMap Application.seriesName? =
      ((callsOfKwargs es).filterMap Application.seriesName?).map (swapName old new)
  | [] => rfl
  | (_, e) :: rest => by
      have first := seriesNames_renameSeries old new e
      unfold seriesNames at first
      rw [renameKwargs, callsOfKwargs, callsOfKwargs, List.filterMap_append, List.filterMap_append,
        List.map_append, first, namesOfKwargs_renameKwargs old new rest]

end

theorem unread_renameSeries {old new : String} (apart : old ≠ new) (e : Expr) :
    old ∉ (renameSeries old new e).seriesNames := by
  rw [seriesNames_renameSeries, List.mem_map]
  rintro ⟨name, -, same⟩
  unfold swapName at same
  split at same
  · exact apart same.symm
  · rename_i other
    exact other same

/-- Renaming a series keeps a tree readable. -/
theorem readable_renameSeries {room : Nat} {e : Expr} (h : Readable room e) (old new : String) :
    Readable room (renameSeries old new e) := by
  induction h with
  | literal h => exact .literal h
  | symbol h => exact .symbol h
  | @call room op args kwargs name positional keys values sorted ihArgs ihKwargs =>
      rw [renameSeries_call, renameKwargs_eq_map]
      refine .call name (fun e he => ?_) (fun p hp => ?_) (fun p hp => ?_) ?_
      · rcases mem_renamedArgs he with rfl | ⟨arg, harg, rfl⟩
        · exact .literal trivial
        · exact ihArgs arg harg
      · obtain ⟨q, hq, rfl⟩ := List.mem_map.1 hp
        exact keys q hq
      · obtain ⟨q, hq, rfl⟩ := List.mem_map.1 hp
        exact ihKwargs q hq
      · exact List.pairwise_map.2 sorted

theorem ofText_eq_ok_iff {text : String} {e : Expr} : ofText text = .ok e ↔ parse text = .ok e := by
  unfold ofText
  cases parse text with
  | error error => simp
  | ok tree => simp

/-- The canonical text of a renamed tree is read as the renamed tree. -/
theorem ofText_canonical_renameSeries {text : String} {e : Expr} (h : ofText text = .ok e)
    (old new : String) :
    ofText (renameSeries old new e).canonical = .ok (renameSeries old new e) := by
  rw [ofText_eq_ok_iff] at h ⊢
  exact parse_canonical_of_readable (readable_renameSeries (readable_parse h) old new)

end SeriesLang.Expr
