import SeriesLang.Proofs.Database.Acyclic
import SeriesLang.Proofs.Query.Dates

/-! # The search for the names that an expression reads

The search follows each formula once, at the end of the chain through which it was first met. A formula
that was followed before and stands outside the chain is settled: so is all that it leads to. A chain that
closes is therefore always met while it is still open, and what closes it is a real chain of formulas.
-/

namespace SeriesLang

/-- The names that an expression reads, directly or through formulas. -/
def Expr.ReadsThrough (r : Registry) (catalog : Catalog) (e : Expr) (name : String) : Prop :=
  ∃ e', e.Reaches r catalog e' ∧ name ∈ r.references e'

namespace Dependencies

variable {r : Registry} {store : Store} {catalog : Catalog}

/-- How a search that succeeds goes through names at the end of a chain, from what was found before to
    what is found after it. -/
inductive Explored (r : Registry) (store : Store) (catalog : Catalog) :
    List String → Dependencies → Dependencies → Dependencies → Prop
  /-- Nothing is left to look at. -/
  | done {stack found} : Explored r store catalog stack found [] found
  /-- A name that is no formula, or a formula that was found before. -/
  | passed {stack found name dependency read out} (outside : name ∉ stack)
      (stands : Stands store catalog (name, dependency))
      (known : dependency = .formula → name ∈ names found)
      (rest : Explored r store catalog stack (Sorted.put name dependency found) read out) :
      Explored r store catalog stack found ((name, dependency) :: read) out
  /-- A formula that is met for the first time: its own names are gone through at the end of the longer
      chain. -/
  | followed {stack found name tree below middle read out} (outside : name ∉ stack)
      (new : name ∉ names found) (formula : catalog name = .ok (some tree))
      (reads : (direct r store tree).run catalog = .ok below)
      (inner : Explored r store catalog (stack ++ [name]) (Sorted.put name .formula found) below middle)
      (rest : Explored r store catalog stack middle read out) :
      Explored r store catalog stack found ((name, .formula) :: read) out

theorem explored_of_visits {room : Nat} {stack : List String} {read found out : Dependencies}
    (follow : ∀ stack found e out, (expand r store room stack found e).run catalog = .ok out →
      ∃ read, (direct r store e).run catalog = .ok read ∧ Explored r store catalog stack found read out)
    (stands : ∀ p ∈ read, Stands store catalog p)
    (h : read.foldlM (visit r store catalog room stack) found = .ok out) :
    Explored r store catalog stack found read out := by
  induction read generalizing found with
  | nil =>
      cases h
      exact .done
  | cons p read ih =>
      obtain ⟨name, dependency⟩ := p
      rw [List.foldlM_cons] at h
      obtain ⟨middle, hvisit, h⟩ := ok_of_bind h
      have here := stands _ List.mem_cons_self
      have rest := ih (fun q hq => stands q (List.mem_cons_of_mem _ hq)) h
      unfold visit at hvisit
      split at hvisit
      · cases hvisit
      · rename_i notCyclic
        have outside : name ∉ stack := by simpa using notCyclic
        split at hvisit
        · rename_i fresh
          simp only [Bool.and_eq_true, decide_eq_true_eq, Bool.not_eq_true'] at fresh
          obtain ⟨rfl, new⟩ := fresh
          obtain ⟨tree, formula⟩ := here.formula_iff.1 rfl
          rw [formula] at hvisit
          obtain ⟨below, reads, inner⟩ := follow _ _ _ _ hvisit
          refine .followed outside (fun old => ?_) formula reads inner rest
          rw [mem_names.1 old] at new
          cases new
        · rename_i old
          cases hvisit
          refine .passed outside here (fun formula => ?_) rest
          rw [mem_names]
          simpa [formula] using old

theorem explored_of_ok {room : Nat} {stack : List String} {found out : Dependencies} {e : Expr}
    (h : (expand r store room stack found e).run catalog = .ok out) :
    ∃ read, (direct r store e).run catalog = .ok read ∧
      Explored r store catalog stack found read out := by
  induction room generalizing stack found e out with
  | zero => cases h
  | succ room ih =>
      rw [run_expand] at h
      obtain ⟨read, hread, h⟩ := ok_of_bind h
      exact ⟨read, hread, explored_of_visits (fun _ _ _ _ => ih) (stands_direct hread).1 h⟩

/-- The names outside a chain that were found read only such names. -/
def Settled (r : Registry) (catalog : Catalog) (stack : List String) (found : Dependencies) : Prop :=
  ∀ name ∈ names found, name ∉ stack → ∀ tree, catalog name = .ok (some tree) →
    ∀ other ∈ r.references tree, other ∈ names found ∧ other ∉ stack

/-- From a settled name no formula of the chain is reached. -/
theorem Settled.leads {stack : List String} {found : Dependencies} (h : Settled r catalog stack found)
    {name other : String} (known : name ∈ names found) (outside : name ∉ stack)
    (path : Relation.ReflTransGen (Catalog.Leads r catalog) name other) :
    other ∈ names found ∧ other ∉ stack := by
  induction path with
  | refl => exact ⟨known, outside⟩
  | tail _ edge ih =>
      obtain ⟨tree, -, formula, reads, -⟩ := edge
      exact h _ ih.1 ih.2 tree formula _ reads

/-- A name that no formula has to be followed for is settled at once. -/
theorem Settled.put {stack : List String} {found : Dependencies} (h : Settled r catalog stack found)
    {p : String × Dependency} (stands : Stands store catalog p)
    (known : p.2 = .formula → p.1 ∈ names found) :
    Settled r catalog stack (Sorted.put p.1 p.2 found) := by
  intro other hother outside tree formula next reads
  have old : other ∈ names found := by
    rcases mem_names_put.1 hother with rfl | hother
    · exact known (stands.formula_iff.2 ⟨tree, formula⟩)
    · exact hother
  obtain ⟨inFound, apart⟩ := h other old outside tree formula next reads
  exact ⟨mem_names_put.2 (.inr inFound), apart⟩

/-- A formula that is about to be followed joins the chain, which leaves what is settled. -/
theorem Settled.push {stack : List String} {found : Dependencies} (h : Settled r catalog stack found)
    {name : String} (new : name ∉ names found) (dependency : Dependency) :
    Settled r catalog (stack ++ [name]) (Sorted.put name dependency found) := by
  intro other hother outside tree formula next reads
  simp only [List.mem_append, List.mem_singleton, not_or] at outside ⊢
  have old := (mem_names_put.1 hother).resolve_left outside.2
  obtain ⟨inFound, apart⟩ := h other old outside.1 tree formula next reads
  refine ⟨mem_names_put.2 (.inr inFound), apart, ?_⟩
  rintro rfl
  exact new inFound

/-- A formula whose names were all gone through leaves the chain, and is settled itself. -/
theorem Settled.pop {stack : List String} {found : Dependencies} {name : String}
    (h : Settled r catalog (stack ++ [name]) found)
    (reads : ∀ tree, catalog name = .ok (some tree) → ∀ other ∈ r.references tree,
      other ∈ names found ∧ other ∉ stack ++ [name]) :
    Settled r catalog stack found := by
  intro other hother outside tree formula next hnext
  have inside : next ∈ names found ∧ next ∉ stack ++ [name] := by
    by_cases same : other = name
    · subst same
      exact reads tree formula next hnext
    · exact h other hother (by simp [outside, same]) tree formula next hnext
  exact ⟨inside.1, fun hmem => inside.2 (List.mem_append.2 (.inl hmem))⟩

/-- What a search keeps: after it all names that it went through are settled, and no formula that was
    followed leads back to itself. -/
structure Search (r : Registry) (catalog : Catalog) (stack : List String)
    (found read out : Dependencies) : Prop where
  settled : Settled r catalog stack out
  keeps : ∀ name ∈ names found, name ∈ names out
  reads : ∀ p ∈ read, p.1 ∈ names out ∧ p.1 ∉ stack
  acyclic : ∀ name ∈ names out, name ∈ names found ∨
    ¬ Relation.TransGen (Catalog.Leads r catalog) name name

theorem Explored.search {stack : List String} {found read out : Dependencies}
    (h : Explored r store catalog stack found read out) (settled : Settled r catalog stack found) :
    Search r catalog stack found read out := by
  induction h with
  | done => exact ⟨settled, fun _ hname => hname, by simp, fun _ hname => .inl hname⟩
  | @passed stack found name dependency read out outside stands known _ ih =>
      obtain ⟨settled, keeps, reads, acyclic⟩ := ih (settled.put stands known)
      have self : name ∈ names out := keeps name (mem_names_put.2 (.inl rfl))
      refine ⟨settled, fun other hother => keeps other (mem_names_put.2 (.inr hother)), ?_, ?_⟩
      · rintro p (_ | ⟨_, hp⟩)
        · exact ⟨self, outside⟩
        · exact reads p hp
      · intro other hother
        rcases acyclic other hother with old | new
        · rcases mem_names_put.1 old with rfl | old
          · by_cases formula : dependency = .formula
            · exact .inl (known formula)
            · refine .inr (fun path => ?_)
              obtain ⟨_, ⟨tree, _, answer, _⟩, _⟩ := Relation.TransGen.head'_iff.1 path
              exact formula (stands.formula_iff.2 ⟨tree, answer⟩)
          · exact .inl old
        · exact .inr new
  | @followed stack found name tree below middle read out outside new formula reads _ _ ihInner ihRest =>
      have inner := ihInner (settled.push new .formula)
      have own : ∀ other ∈ r.references tree, other ∈ names middle ∧ other ∉ stack ++ [name] := by
        intro other hother
        obtain ⟨p, hp, rfl⟩ := List.mem_map.1 ((stands_direct reads).2.2 other hother)
        exact inner.reads p hp
      have rest := ihRest (inner.settled.pop (fun found answer => by
        rw [formula] at answer
        cases answer
        exact own))
      have self : name ∈ names middle := inner.keeps name (mem_names_put.2 (.inl rfl))
      -- All that the formula reads is settled below it, so a chain never comes back to it.
      have apart : ¬ Relation.TransGen (Catalog.Leads r catalog) name name := by
        intro path
        obtain ⟨next, ⟨found, _, answer, mem, _⟩, back⟩ := Relation.TransGen.head'_iff.1 path
        rw [formula] at answer
        cases answer
        obtain ⟨known, below⟩ := own next mem
        exact (inner.settled.leads known below back).2 (List.mem_append.2 (.inr List.mem_cons_self))
      refine ⟨rest.settled, fun other hother => rest.keeps other (inner.keeps other
        (mem_names_put.2 (.inr hother))), ?_, ?_⟩
      · rintro p (_ | ⟨_, hp⟩)
        · exact ⟨rest.keeps name self, outside⟩
        · exact rest.reads p hp
      · intro other hother
        rcases rest.acyclic other hother with old | clear
        · rcases inner.acyclic other old with old | clear
          · rcases mem_names_put.1 old with rfl | old
            · exact .inr apart
            · exact .inl old
          · exact .inr clear
        · exact .inr clear

/-- All that a search finds is read, directly or through formulas. -/
theorem Explored.origin {stack : List String} {found read out : Dependencies} {e : Expr}
    (h : Explored r store catalog stack found read out)
    (reached : ∀ p ∈ read, e.ReadsThrough r catalog p.1) :
    ∀ name ∈ names out, name ∈ names found ∨ e.ReadsThrough r catalog name := by
  induction h with
  | done => exact fun name hname => .inl hname
  | @passed stack found name dependency read out _ _ _ _ ih =>
      intro other hother
      rcases ih (fun p hp => reached p (List.mem_cons_of_mem _ hp)) other hother with old | new
      · rcases mem_names_put.1 old with rfl | old
        · exact .inr (reached (other, dependency) List.mem_cons_self)
        · exact .inl old
      · exact .inr new
  | @followed stack found name tree below middle read out _ _ formula reads _ _ ihInner ihRest =>
      obtain ⟨above, reach, mem⟩ := reached (name, .formula) List.mem_cons_self
      have inner := ihInner (fun p hp => ⟨tree, reach.formula mem formula, (stands_direct reads).2.1 p hp⟩)
      intro other hother
      rcases ihRest (fun p hp => reached p (List.mem_cons_of_mem _ hp)) other hother with old | new
      · rcases inner other old with old | new
        · rcases mem_names_put.1 old with rfl | old
          · exact .inr ⟨above, reach, mem⟩
          · exact .inl old
        · exact .inr new
      · exact .inr new

/-- All that is read, directly or through formulas, is found. -/
theorem mem_of_readsThrough {room : Nat} {stack : List String} {out : Dependencies} {e : Expr}
    (h : (expand r store room stack [] e).run catalog = .ok out) {name : String}
    (reads : e.ReadsThrough r catalog name) : name ∈ names out := by
  have expanded := expanded_of_ok h
  obtain ⟨e', reached, hname⟩ := reads
  induction reached generalizing name with
  | self => exact (expanded.reads name hname).1
  | formula _ mem named ih =>
      rcases expanded.closed _ (ih mem) with none | ⟨-, closed⟩
      · cases none
      · exact closed _ named name hname

/-- A chain at whose end an expression stands that is reached from the one the search is for. Each name of
    the chain leads to every formula that the expression reads. -/
structure Open (r : Registry) (catalog : Catalog) (name : String) (root : Expr) (stack : List String)
    (e : Expr) : Prop where
  reached : root.Reaches r catalog e
  self : name ∈ stack
  leads : ∀ above ∈ stack, ∀ next ∈ r.references e,
    (∃ tree, catalog.overlaid [(name, root)] next = .ok (some tree)) →
      Relation.TransGen (Catalog.Leads r (catalog.overlaid [(name, root)])) above next
  formulas : ∀ above ∈ stack, ∃ tree, catalog.overlaid [(name, root)] above = .ok (some tree)

theorem Open.root (r : Registry) (catalog : Catalog) (name : String) (root : Expr) :
    Open r catalog name root [name] root where
  reached := .self
  self := List.mem_cons_self
  leads above habove next mem formula := by
    rw [List.mem_singleton.1 habove]
    obtain ⟨tree, answer⟩ := formula
    exact .single ⟨root, tree, by rw [Catalog.overlaid_single, if_pos rfl], mem, answer⟩
  formulas above habove := by
    rw [List.mem_singleton.1 habove, Catalog.overlaid_single, if_pos rfl]
    exact ⟨root, rfl⟩

/-- A chain goes on with a formula that its last expression reads. -/
theorem Open.push {name next : String} {root e tree : Expr} {stack : List String}
    (h : Open r catalog name root stack e) (outside : next ∉ stack) (mem : next ∈ r.references e)
    (formula : catalog next = .ok (some tree)) :
    Open r catalog name root (stack ++ [next]) tree := by
  have laid : catalog.overlaid [(name, root)] next = .ok (some tree) := by
    rw [Catalog.overlaid_single, if_neg, formula]
    rintro rfl
    exact outside h.self
  refine ⟨h.reached.formula mem formula, List.mem_append.2 (.inl h.self), ?_, ?_⟩
  · rintro above habove other hother ⟨found, answer⟩
    have edge : Catalog.Leads r (catalog.overlaid [(name, root)]) next other :=
      ⟨tree, found, laid, hother, answer⟩
    rcases List.mem_append.1 habove with habove | habove
    · exact (h.leads above habove next mem ⟨tree, laid⟩).tail edge
    · rw [List.mem_singleton.1 habove]
      exact .single edge
  · intro above habove
    rcases List.mem_append.1 habove with habove | habove
    · exact h.formulas above habove
    · rw [List.mem_singleton.1 habove]
      exact ⟨tree, laid⟩

/-- What a search reports as a cycle is one, unless the catalog reported it itself when it was asked for a
    name that is read. -/
theorem Open.cycle {room : Nat} {name again : String} {root e : Expr} {stack : List String}
    {found : Dependencies} (h : Open r catalog name root stack e)
    (failed : (expand r store room stack found e).run catalog = .error (.cyclicFormula again)) :
    (∃ other, root.ReadsThrough r catalog other ∧ catalog other = .error (.cyclicFormula again)) ∨
      (root.ReadsThrough r catalog again ∧
        Relation.TransGen (Catalog.Leads r (catalog.overlaid [(name, root)])) again again) := by
  induction room generalizing stack found e with
  | zero => cases failed
  | succ room ih =>
      rw [run_expand] at failed
      rcases error_of_bind failed with failed | ⟨read, hread, failed⟩
      · rw [run_direct] at failed
        obtain ⟨other, mem, _, failed⟩ := error_of_foldlM failed
        exact .inl ⟨other, ⟨e, h.reached, mem⟩, error_of_map failed⟩
      · obtain ⟨⟨next, dependency⟩, hnext, found, failed⟩ := error_of_foldlM failed
        have mem := (stands_direct hread).2.1 _ hnext
        unfold visit at failed
        split at failed
        · rename_i closes
          cases failed
          have inside : next ∈ stack := by simpa using closes
          exact .inr ⟨⟨e, h.reached, mem⟩, h.leads next inside next mem (h.formulas next inside)⟩
        · rename_i notCyclic
          split at failed
          · rcases error_of_bind failed with failed | ⟨tree, formula, failed⟩
            · exact .inl ⟨next, ⟨e, h.reached, mem⟩, failed⟩
            · cases tree with
              | none => cases failed
              | some tree => exact ih (h.push (by simpa using notCyclic) mem formula) failed
          · cases failed

/-- The names that are found for a formula to be are exactly those that it reads, directly or through
    formulas, each as what it stands for. Its own name is not among them, and none of them leads back to
    itself. Where a cycle is reported, the formula that it is reported for is read and leads back to
    itself, the new formula taken for its name. -/
theorem ofFormula_exact (r : Registry) (store : Store) (catalog : Catalog) (name : String) (e : Expr) :
    (∀ found, (ofFormula r store name e).run catalog = .ok found →
      (∀ other, other ∈ names found ↔ e.ReadsThrough r catalog other) ∧
      (∀ p ∈ found, (Dependency.lookup store p.1).run catalog = .ok p.2) ∧
      Sorted.Ascending found ∧ name ∉ names found ∧
      ∀ other ∈ names found, ¬ Relation.TransGen (Catalog.Leads r catalog) other other) ∧
    ∀ again, (ofFormula r store name e).run catalog = .error (.cyclicFormula again) →
      (∃ other, e.ReadsThrough r catalog other ∧ catalog other = .error (.cyclicFormula again)) ∨
        (e.ReadsThrough r catalog again ∧
          Relation.TransGen (Catalog.Leads r (catalog.overlaid [(name, e)])) again again) := by
  refine ⟨fun found run => ?_, fun again failed => (Open.root r catalog name e).cycle failed⟩
  have expanded := expanded_of_ok run
  obtain ⟨read, hread, explored⟩ := explored_of_ok run
  have search := explored.search (fun _ hnone => by cases hnone)
  refine ⟨fun other => ⟨fun hother => ?_, mem_of_readsThrough run⟩, fun p hp => ?_,
    expanded.ascending .nil, fun self => ?_, fun other hother => ?_⟩
  · have reads := explored.origin (e := e) (fun p hp => ⟨e, .self, (stands_direct hread).2.1 p hp⟩)
    exact (reads other hother).resolve_left (by simp [names])
  · obtain ⟨tree, answer, kind⟩ := (expanded.stands p hp).resolve_left (by simp)
    rw [run_lookup, answer, kind]
    rfl
  · obtain ⟨outside, -⟩ := (expanded.closed name self).resolve_left (by simp [names])
    exact outside List.mem_cons_self
  · exact (search.acyclic other hother).resolve_left (by simp [names])

/-- Two formulas that read a third one are no cycle. A formula that reads itself through another one is. -/
theorem ofFormula_exact_shared :
    (∃ found, (ofFormula .builtin {} "top" (.call ⟨"add", [.series "left", .series "right"], []⟩)).run
        (Catalog.empty.overlaid [("left", .series "low"), ("low", .series "base"),
          ("right", .series "low")]) = .ok found ∧
      found = [("base", .unknown), ("left", .formula), ("low", .formula), ("right", .formula)] ∧
      ∀ other ∈ names found, ¬ Relation.TransGen (Catalog.Leads .builtin
        (Catalog.empty.overlaid [("left", .series "low"), ("low", .series "base"),
          ("right", .series "low")])) other other) ∧
    (ofFormula .builtin {} "top" (.series "left")).run (Catalog.empty.overlaid [("left", .series "top")]) =
      .error (.cyclicFormula "top") ∧
    Relation.TransGen (Catalog.Leads .builtin ((Catalog.empty.overlaid [("left", .series "top")]).overlaid
      [("top", .series "left")])) "top" "top" := by
  have run : (ofFormula .builtin {} "top" (.call ⟨"add", [.series "left", .series "right"], []⟩)).run
      (Catalog.empty.overlaid [("left", .series "low"), ("low", .series "base"),
        ("right", .series "low")]) =
      .ok [("base", .unknown), ("left", .formula), ("low", .formula), ("right", .formula)] := by
    decide +kernel
  have failed : (ofFormula .builtin {} "top" (.series "left")).run
      (Catalog.empty.overlaid [("left", .series "top")]) = .error (.cyclicFormula "top") := by
    decide +kernel
  refine ⟨⟨_, run, rfl, ((ofFormula_exact .builtin {} _ "top" _).1 _ run).2.2.2.2⟩, failed, ?_⟩
  rcases (ofFormula_exact .builtin {} _ "top" _).2 _ failed with ⟨other, -, answer⟩ | ⟨-, cycle⟩
  · rw [Catalog.overlaid_single] at answer
    split at answer <;> cases answer
  · exact cycle

end Dependencies

end SeriesLang
