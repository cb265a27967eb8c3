import SeriesLang.Proofs.Query.Run
import SeriesLang.Query.Dependency

/-! # The names that an expression reads

What is found for an expression is closed: with every formula that was followed, the names that it reads
are among those found. The names depend on the catalog only through the answers for them, so a catalog
that agrees on what was found gives the same names.
-/

namespace SeriesLang.Dependencies

variable {r : Registry} {store : Store} {catalog : Catalog}

/-- What a name stands for, by its formula. -/
def standsFor (store : Store) (name : String) : Option Expr → Dependency
  | some _ => .formula
  | none => .stored store name

theorem run_lookup (store : Store) (catalog : Catalog) (name : String) :
    (Dependency.lookup store name).run catalog = (catalog name).map (standsFor store name) := by
  show ((Query.formula name).bind _).run catalog = _
  rw [Query.run_bind, Query.run_formula]
  cases catalog name with
  | error e => rfl
  | ok tree => cases tree <;> rfl

/-- One more name that an expression reads itself. -/
def note (store : Store) (catalog : Catalog) (found : Dependencies) (name : String) :
    Except Error Dependencies :=
  (catalog name).map (fun tree => Sorted.put name (standsFor store name tree) found)

theorem run_direct (r : Registry) (store : Store) (catalog : Catalog) (e : Expr) :
    (direct r store e).run catalog = (r.references e).foldlM (note store catalog) [] := by
  rw [direct, Query.run_foldOver]
  congr 1
  funext found name
  show ((Dependency.lookup store name).bind _).run catalog = _
  rw [Query.run_bind, run_lookup, note]
  cases catalog name <;> rfl

/-- One more name at the end of a chain of formulas. -/
def visit (r : Registry) (store : Store) (catalog : Catalog) (room : Nat) (stack : List String)
    (found : Dependencies) (p : String × Dependency) : Except Error Dependencies :=
  if stack.contains p.1 then .error (.cyclicFormula p.1)
  else if p.2 = .formula && !Sorted.contains p.1 found then
    (catalog p.1).bind (fun tree => match tree with
      | some tree => (expand r store room (stack ++ [p.1]) (Sorted.put p.1 p.2 found) tree).run catalog
      | none => .ok (Sorted.put p.1 p.2 found))
  else .ok (Sorted.put p.1 p.2 found)

theorem run_expand (r : Registry) (store : Store) (catalog : Catalog) (room : Nat)
    (stack : List String) (found : Dependencies) (e : Expr) :
    (expand r store (room + 1) stack found e).run catalog =
      ((direct r store e).run catalog).bind
        (fun read => read.foldlM (visit r store catalog room stack) found) := by
  show ((direct r store e).bind _).run catalog = _
  rw [Query.run_bind]
  congr 1
  funext read
  rw [Query.run_foldOver]
  congr 1
  funext found p
  obtain ⟨name, dependency⟩ := p
  unfold visit
  simp only
  split
  · rfl
  · split
    · show ((Query.formula name).bind _).run catalog = _
      rw [Query.run_bind, Query.run_formula]
      congr 1
      funext tree
      cases tree <;> rfl
    · rfl

/-- A formula that has not been found yet is followed. -/
theorem visit_formula {name : String} {e : Expr} (known : catalog name = .ok (some e)) (room : Nat)
    {stack : List String} (outside : ¬stack.contains name = true) {found : Dependencies}
    (new : Sorted.contains name found = false) :
    visit r store catalog room stack found (name, .formula) =
      (expand r store room (stack ++ [name]) (Sorted.put name .formula found) e).run catalog := by
  rw [visit, if_neg outside, if_pos (by simp [new]), known]
  rfl

/-- A formula that has been found already is not followed again. -/
theorem visit_found {name : String} (room : Nat) {stack : List String}
    (outside : ¬stack.contains name = true) {found : Dependencies} {dependency : Dependency}
    (old : dependency = .formula → Sorted.contains name found = true) :
    visit r store catalog room stack found (name, dependency) =
      .ok (Sorted.put name dependency found) := by
  rw [visit, if_neg outside, if_neg]
  by_cases formula : dependency = .formula
  · simp [old formula]
  · simp [formula]

theorem mem_names {name : String} {found : Dependencies} :
    name ∈ names found ↔ Sorted.contains name found = true :=
  Sorted.contains_iff_mem.symm

theorem mem_names_put {name other : String} {dependency : Dependency} {found : Dependencies} :
    other ∈ names (Sorted.put name dependency found) ↔ other = name ∨ other ∈ names found := by
  rw [mem_names, mem_names, Sorted.contains_put, Bool.or_eq_true, decide_eq_true_eq, eq_comm]

/-- Every name that an expression reads itself is noted, as what it stands for. -/
theorem foldlM_note {refs : List String} {found out : Dependencies}
    (h : refs.foldlM (note store catalog) found = .ok out) :
    (∀ p ∈ out, p ∈ found ∨ (p.1 ∈ refs ∧ ∃ tree, catalog p.1 = .ok tree ∧
      p.2 = standsFor store p.1 tree)) ∧
    (∀ name ∈ names found, name ∈ names out) ∧ ∀ name ∈ refs, name ∈ names out := by
  induction refs generalizing found with
  | nil =>
      cases h
      exact ⟨fun p hp => .inl hp, fun name hname => hname, by simp⟩
  | cons name refs ih =>
      rw [List.foldlM_cons] at h
      obtain ⟨middle, hnote, h⟩ := ok_of_bind h
      obtain ⟨tree, answer, rfl⟩ := ok_of_map hnote
      obtain ⟨origin, keeps, reads⟩ := ih h
      refine ⟨fun p hp => ?_, fun other hother => keeps other (mem_names_put.2 (.inr hother)),
        fun other hother => ?_⟩
      · rcases origin p hp with hp | ⟨hp, stands⟩
        · rcases Sorted.mem_put hp with rfl | hp
          · exact .inr ⟨List.mem_cons_self, tree, answer, rfl⟩
          · exact .inl hp
        · exact .inr ⟨List.mem_cons_of_mem _ hp, stands⟩
      · rcases List.mem_cons.1 hother with rfl | hother
        · exact keeps other (mem_names_put.2 (.inl rfl))
        · exact reads other hother

/-- The answers for what an expression reads, each noted as what it stands for. -/
def Stands (store : Store) (catalog : Catalog) (p : String × Dependency) : Prop :=
  ∃ tree, catalog p.1 = .ok tree ∧ p.2 = standsFor store p.1 tree

theorem stands_direct {e : Expr} {read : Dependencies}
    (h : (direct r store e).run catalog = .ok read) :
    (∀ p ∈ read, Stands store catalog p) ∧ (∀ p ∈ read, p.1 ∈ r.references e) ∧
      ∀ name ∈ r.references e, name ∈ names read := by
  rw [run_direct] at h
  obtain ⟨origin, -, reads⟩ := foldlM_note h
  refine ⟨fun p hp => ?_, fun p hp => ?_, reads⟩
  · rcases origin p hp with hp | ⟨-, stands⟩
    · cases hp
    · exact stands
  · rcases origin p hp with hp | ⟨hp, -⟩
    · cases hp
    · exact hp

theorem stored_ne_formula (store : Store) (name : String) :
    Dependency.stored store name ≠ .formula := by
  unfold Dependency.stored
  split <;> simp

theorem Stands.formula_iff {p : String × Dependency} (h : Stands store catalog p) :
    p.2 = .formula ↔ ∃ tree, catalog p.1 = .ok (some tree) := by
  obtain ⟨tree, answer, kind⟩ := h
  rw [kind, answer]
  cases tree with
  | some tree => simp [standsFor]
  | none => simp [standsFor, stored_ne_formula]

/-- How the names that were found grow at the end of a chain of formulas. Of every new one the names that
    its formula reads are found as well, and none of them stands in the chain. -/
structure Grows (r : Registry) (store : Store) (catalog : Catalog) (stack : List String)
    (found out : Dependencies) : Prop where
  keeps : ∀ name ∈ names found, name ∈ names out
  closed : ∀ name ∈ names out, name ∈ names found ∨ (name ∉ stack ∧
    ∀ tree, catalog name = .ok (some tree) → ∀ other ∈ r.references tree, other ∈ names out)
  stands : ∀ p ∈ out, p ∈ found ∨ Stands store catalog p
  ascending : Sorted.Ascending found → Sorted.Ascending out

theorem Grows.refl (stack : List String) (found : Dependencies) :
    Grows r store catalog stack found found :=
  ⟨fun _ h => h, fun _ h => .inl h, fun _ h => .inl h, fun h => h⟩

theorem Grows.trans {stack : List String} {found middle out : Dependencies}
    (h : Grows r store catalog stack found middle) (k : Grows r store catalog stack middle out) :
    Grows r store catalog stack found out where
  keeps name hname := k.keeps name (h.keeps name hname)
  closed name hname := by
    rcases k.closed name hname with hname | new
    · rcases h.closed name hname with hname | ⟨outside, reads⟩
      · exact .inl hname
      · exact .inr ⟨outside, fun tree answer other hother => k.keeps other (reads tree answer other hother)⟩
    · exact .inr new
  stands p hp := by
    rcases k.stands p hp with hp | stands
    · exact h.stands p hp
    · exact .inr stands
  ascending sorted := k.ascending (h.ascending sorted)

/-- A name that no formula has to be followed for. -/
theorem Grows.put {stack : List String} {found : Dependencies} {p : String × Dependency}
    (stands : Stands store catalog p) (outside : p.1 ∉ stack)
    (known : p.2 = .formula → p.1 ∈ names found) :
    Grows r store catalog stack found (Sorted.put p.1 p.2 found) where
  keeps name hname := mem_names_put.2 (.inr hname)
  closed name hname := by
    rcases mem_names_put.1 hname with rfl | hname
    · by_cases formula : p.2 = .formula
      · exact .inl (known formula)
      · exact .inr ⟨outside, fun tree answer => absurd (stands.formula_iff.2 ⟨tree, answer⟩) formula⟩
    · exact .inl hname
  stands q hq := by
    rcases Sorted.mem_put hq with rfl | hq
    · exact .inr stands
    · exact .inl hq
  ascending sorted := sorted.put p.1 p.2

/-- What is found for an expression at the end of a chain of formulas. -/
structure Expanded (r : Registry) (store : Store) (catalog : Catalog) (stack : List String)
    (found : Dependencies) (e : Expr) (out : Dependencies) : Prop
    extends Grows r store catalog stack found out where
  reads : ∀ name ∈ r.references e, name ∈ names out ∧ name ∉ stack

theorem grows_visit {room : Nat} {stack : List String} {found out : Dependencies}
    {p : String × Dependency}
    (follow : ∀ stack found e out, (expand r store room stack found e).run catalog = .ok out →
      Expanded r store catalog stack found e out)
    (stands : Stands store catalog p)
    (h : visit r store catalog room stack found p = .ok out) :
    Grows r store catalog stack found out ∧ p.1 ∈ names out ∧ p.1 ∉ stack := by
  have self : p.1 ∈ names (Sorted.put p.1 p.2 found) := mem_names_put.2 (.inl rfl)
  unfold visit at h
  split at h
  · cases h
  · rename_i notCyclic
    have outside : p.1 ∉ stack := by simpa using notCyclic
    split at h
    · rename_i fresh
      simp only [Bool.and_eq_true, decide_eq_true_eq] at fresh
      obtain ⟨tree, answer, h⟩ := ok_of_bind h
      obtain ⟨tree, rfl⟩ : ∃ t, tree = some t := by
        obtain ⟨t, found⟩ := stands.formula_iff.1 fresh.1
        rw [answer] at found
        exact ⟨t, Except.ok.inj found⟩
      have expanded := follow _ _ _ _ h
      refine ⟨⟨fun name hname => expanded.keeps name (mem_names_put.2 (.inr hname)),
        fun name hname => ?_, fun q hq => ?_, fun sorted => expanded.ascending (sorted.put _ _)⟩,
        expanded.keeps _ self, outside⟩
      · rcases expanded.closed name hname with hname | ⟨deeper, reads⟩
        · rcases mem_names_put.1 hname with rfl | hname
          · refine .inr ⟨outside, fun other found => ?_⟩
            rw [answer] at found
            cases found
            exact fun name hname => (expanded.reads name hname).1
          · exact .inl hname
        · exact .inr ⟨fun hmem => deeper (List.mem_append.2 (.inl hmem)), reads⟩
      · rcases expanded.stands q hq with hq | stands
        · rcases Sorted.mem_put hq with rfl | hq
          · exact .inr stands
          · exact .inl hq
        · exact .inr stands
    · rename_i old
      cases h
      refine ⟨.put stands outside (fun formula => ?_), self, outside⟩
      rw [mem_names]
      simpa [formula] using old

theorem grows_visits {room : Nat} {stack : List String} {read found out : Dependencies}
    (follow : ∀ stack found e out, (expand r store room stack found e).run catalog = .ok out →
      Expanded r store catalog stack found e out)
    (stands : ∀ p ∈ read, Stands store catalog p)
    (h : read.foldlM (visit r store catalog room stack) found = .ok out) :
    Grows r store catalog stack found out ∧ ∀ p ∈ read, p.1 ∈ names out ∧ p.1 ∉ stack := by
  induction read generalizing found with
  | nil =>
      cases h
      exact ⟨.refl stack _, by simp⟩
  | cons p read ih =>
      rw [List.foldlM_cons] at h
      obtain ⟨middle, hvisit, h⟩ := ok_of_bind h
      obtain ⟨first, inMiddle, outside⟩ := grows_visit follow (stands p List.mem_cons_self) hvisit
      obtain ⟨others, inOut⟩ := ih (fun q hq => stands q (List.mem_cons_of_mem _ hq)) h
      refine ⟨first.trans others, fun q hq => ?_⟩
      rcases List.mem_cons.1 hq with rfl | hq
      · exact ⟨others.keeps _ inMiddle, outside⟩
      · exact inOut q hq

/-- What is found for an expression is closed under what formulas read. -/
theorem expanded_of_ok {room : Nat} {stack : List String} {found out : Dependencies} {e : Expr}
    (h : (expand r store room stack found e).run catalog = .ok out) :
    Expanded r store catalog stack found e out := by
  induction room generalizing stack found e out with
  | zero => cases h
  | succ room ih =>
      rw [run_expand] at h
      obtain ⟨read, hread, h⟩ := ok_of_bind h
      obtain ⟨stands, inRefs, inRead⟩ := stands_direct hread
      obtain ⟨grows, inOut⟩ := grows_visits (fun _ _ _ _ => ih) stands h
      refine ⟨grows, fun name hname => ?_⟩
      obtain ⟨p, hp, rfl⟩ := List.mem_map.1 (inRead name hname)
      exact inOut p hp

theorem names_put_congr {found found' : Dependencies} (h : names found' = names found) (name : String)
    (d d' : Dependency) : names (Sorted.put name d' found') = names (Sorted.put name d found) := by
  induction found generalizing found' with
  | nil =>
      rw [List.map_eq_nil_iff.1 h]
      rfl
  | cons p found ih =>
      obtain ⟨p', found', rfl, hp, hfound⟩ := List.map_eq_cons_iff.1 h
      obtain ⟨other, e⟩ := p
      obtain ⟨other', e'⟩ := p'
      cases hp
      simp only [Sorted.put]
      split
      · exact congrArg (fun ns => name :: other :: ns) hfound
      · split
        · exact congrArg (name :: ·) hfound
        · exact congrArg (other :: ·) (ih hfound)

section Transfer

variable {store' : Store} {catalog' : Catalog}

theorem note_transfer {refs : List String} {found found' out : Dependencies}
    (h : refs.foldlM (note store catalog) found = .ok out) (same : names found' = names found)
    (agree : ∀ name ∈ names out, catalog' name = catalog name) :
    ∃ out', refs.foldlM (note store' catalog') found' = .ok out' ∧ names out' = names out := by
  induction refs generalizing found found' with
  | nil =>
      cases h
      exact ⟨found', rfl, same⟩
  | cons name refs ih =>
      rw [List.foldlM_cons] at h
      obtain ⟨middle, hnote, h⟩ := ok_of_bind h
      obtain ⟨tree, answer, rfl⟩ := ok_of_map hnote
      have kept := (foldlM_note h).2.1 name (mem_names_put.2 (.inl rfl))
      have answer' : catalog' name = .ok tree := by rw [agree name kept, answer]
      obtain ⟨out', hout, names'⟩ := ih h (names_put_congr same name _ (standsFor store' name tree))
      refine ⟨out', ?_, names'⟩
      have noted : note store' catalog' found' name =
          .ok (Sorted.put name (standsFor store' name tree) found') := by
        rw [note, answer']
        rfl
      rw [foldlM_cons_ok noted, hout]

/-- Formulas are followed to the same names, with so much room in either catalog. -/
def Follows (r : Registry) (store store' : Store) (catalog catalog' : Catalog) (room room' : Nat) :
    Prop :=
  ∀ {stack stack' : List String} {found found' out : Dependencies} {e : Expr},
    (expand r store room stack found e).run catalog = .ok out → (∀ name ∈ stack', name ∈ stack) →
    names found' = names found → (∀ name ∈ names out, catalog' name = catalog name) →
    ∃ out', (expand r store' room' stack' found' e).run catalog' = .ok out' ∧ names out' = names out

theorem visit_transfer {room room' : Nat} (follows : Follows r store store' catalog catalog' room room')
    {stack stack' : List String} {found found' out : Dependencies} {p p' : String × Dependency}
    (h : visit r store catalog room stack found p = .ok out)
    (shorter : ∀ name ∈ stack', name ∈ stack) (same : names found' = names found)
    (samePair : p'.1 = p.1) (stands : Stands store catalog p) (stands' : Stands store' catalog' p')
    (agree : ∀ name ∈ names out, catalog' name = catalog name) :
    ∃ out', visit r store' catalog' room' stack' found' p' = .ok out' ∧ names out' = names out := by
  obtain ⟨name, d⟩ := p
  obtain ⟨_, d'⟩ := p'
  cases samePair
  obtain ⟨-, inOut, outside⟩ := grows_visit (fun _ _ _ _ => expanded_of_ok) stands h
  have answer := agree name inOut
  have kinds : d' = .formula ↔ d = .formula := by
    rw [stands'.formula_iff, stands.formula_iff]
    simp only [answer]
  have known : Sorted.contains name found' = Sorted.contains name found := by
    rw [Bool.eq_iff_iff, ← mem_names, ← mem_names, same]
  have notCyclic : stack'.contains name = false := by
    simpa using fun hmem => outside (shorter name hmem)
  unfold visit at h ⊢
  rw [if_neg (by simpa using outside)] at h
  rw [notCyclic, if_neg Bool.false_ne_true]
  split at h
  · rename_i fresh
    rw [if_pos (by simpa [kinds, known] using fresh), answer]
    obtain ⟨tree, found, h⟩ := ok_of_bind h
    rw [found]
    cases tree with
    | none =>
        cases h
        exact ⟨_, rfl, names_put_congr same name d d'⟩
    | some tree =>
        refine follows h (fun other hother => ?_) (names_put_congr same name d d') agree
        rcases List.mem_append.1 hother with hother | hother
        · exact List.mem_append.2 (.inl (shorter other hother))
        · exact List.mem_append.2 (.inr hother)
  · rename_i old
    rw [if_neg (by simpa [kinds, known] using old)]
    cases h
    exact ⟨_, rfl, names_put_congr same name d d'⟩

theorem visits_transfer {room room' : Nat} (follows : Follows r store store' catalog catalog' room room')
    {stack stack' : List String} {read read' found found' out : Dependencies}
    (h : read.foldlM (visit r store catalog room stack) found = .ok out)
    (shorter : ∀ name ∈ stack', name ∈ stack) (same : names found' = names found)
    (sameRead : names read' = names read) (stands : ∀ p ∈ read, Stands store catalog p)
    (stands' : ∀ p ∈ read', Stands store' catalog' p)
    (agree : ∀ name ∈ names out, catalog' name = catalog name) :
    ∃ out', read'.foldlM (visit r store' catalog' room' stack') found' = .ok out' ∧
      names out' = names out := by
  induction read generalizing read' found found' with
  | nil =>
      cases h
      rw [List.map_eq_nil_iff.1 sameRead]
      exact ⟨found', rfl, same⟩
  | cons p read ih =>
      rw [List.foldlM_cons] at h
      obtain ⟨middle, hvisit, h⟩ := ok_of_bind h
      obtain ⟨p', read', rfl, samePair, sameRead⟩ := List.map_eq_cons_iff.1 sameRead
      have standsRead : ∀ q ∈ read, Stands store catalog q :=
        fun q hq => stands q (List.mem_cons_of_mem _ hq)
      obtain ⟨later, -⟩ := grows_visits (fun _ _ _ _ => expanded_of_ok) standsRead h
      obtain ⟨middle', hvisit', sameMiddle⟩ := visit_transfer follows hvisit shorter same samePair
        (stands p List.mem_cons_self) (stands' p' List.mem_cons_self)
        (fun name hname => agree name (later.keeps name hname))
      rw [foldlM_cons_ok hvisit']
      exact ih h sameMiddle sameRead standsRead (fun q hq => stands' q (List.mem_cons_of_mem _ hq))

/-- More room, a shorter chain and a catalog that agrees on the names that were found lead to the same
    names. -/
theorem expand_transfer {room room' : Nat} (deeper : room ≤ room') :
    Follows r store store' catalog catalog' room room' := by
  induction room generalizing room' with
  | zero =>
      intro stack stack' found found' out e h
      cases h
  | succ room ih =>
      intro stack stack' found found' out e h shorter same agree
      obtain ⟨room', rfl⟩ : ∃ n, room' = n + 1 := ⟨room' - 1, by omega⟩
      rw [run_expand] at h
      obtain ⟨read, hread, h⟩ := ok_of_bind h
      have stands := (stands_direct hread).1
      have inOut : ∀ name ∈ names read, name ∈ names out := by
        intro name hname
        obtain ⟨p, hp, rfl⟩ := List.mem_map.1 hname
        exact ((grows_visits (fun _ _ _ _ => expanded_of_ok) stands h).2 p hp).1
      obtain ⟨read', hread', sameRead⟩ : ∃ read',
          (direct r store' e).run catalog' = .ok read' ∧ names read' = names read := by
        rw [run_direct] at hread ⊢
        exact note_transfer hread rfl (fun name hname => agree name (inOut name hname))
      rw [run_expand, hread']
      exact visits_transfer (ih (by omega)) h shorter same sameRead stands (stands_direct hread').1 agree

end Transfer

end SeriesLang.Dependencies
