import SeriesLang.Proofs.Database.Catalog
import SeriesLang.Proofs.Query.Pointwise

/-! # How deeply formulas may be nested

The search for names and the staircases follow a name through the formulas that are read one by the other,
up to a greatest depth. Where no chain of formulas is deeper, they do not fail for the depth. The
staircases count a name that is read at the end of a chain, even if it has no formula: they take one
level less than the search does.
-/

namespace SeriesLang

/-- Something is nested too deeply. -/
def Error.TooDeep (err : Error) : Prop :=
  ∃ limit path, err = .recursionLimit limit path

/-- After so many formulas, each of them read by the one before, nothing is read by name any more. -/
def Expr.Nests (catalog : Catalog) : Nat → Expr → Prop
  | 0, e => e.seriesNames = []
  | depth + 1, e => ∀ name ∈ e.seriesNames, ∀ tree, catalog name = .ok (some tree) →
      Nests catalog depth tree

/-- The trees that are read with an expression: itself, and the formulas of the names in such a tree. -/
inductive Expr.Opens (catalog : Catalog) (e : Expr) : Expr → Prop
  | self : Opens catalog e e
  | formula {between name tree} (h : Opens catalog e between) (reads : name ∈ between.seriesNames)
      (named : catalog name = .ok (some tree)) : Opens catalog e tree

/-- The catalog never answers that a formula is nested too deeply. -/
def Catalog.Shallow (catalog : Catalog) : Prop :=
  ∀ name err, catalog name = .error err → ¬err.TooDeep

/-- A text that cannot be read is malformed. -/
theorem Database.shallow_catalog (db : Database) : db.catalog.Shallow := by
  rintro name err failed ⟨limit, path, rfl⟩
  unfold catalog at failed
  split at failed
  · rename_i row _
    unfold Expr.ofText at failed
    cases parsed : Expr.parse row.text with
    | ok e =>
        simp only [parsed] at failed
        cases failed
    | error e =>
        simp only [parsed] at failed
        cases failed
  · cases failed

variable {α : Type} {env : Env} {catalog : Catalog} {context : Context} {r : Registry} {e : Expr}
  {err : Error}

theorem Expr.mem_seriesNames_of_call {call : Call} (hcall : call ∈ e.calls) {name : String}
    (named : call.seriesName? = some name) : name ∈ e.seriesNames :=
  List.mem_filterMap.2 ⟨call, hcall, named⟩

theorem Registry.mem_seriesNames_of_reference (registry : r = .builtin) {name : String}
    (h : name ∈ r.references e) : name ∈ e.seriesNames := by
  obtain ⟨call, hcall, named⟩ := mem_references registry e h
  exact Expr.mem_seriesNames_of_call hcall named

theorem Env.not_tooDeep_checkpoint {path : Path} (h : env.checkpoint path = .error err) :
    ¬err.TooDeep := by
  rintro ⟨limit, path, rfl⟩
  unfold checkpoint at h
  split at h <;> cases h

namespace Dependencies

variable {store : Store}

theorem direct_error (h : (direct r store e).run catalog = .error err) :
    ∃ name, catalog name = .error err := by
  rw [run_direct] at h
  obtain ⟨name, -, found, h⟩ := error_of_foldlM h
  refine ⟨name, ?_⟩
  unfold note at h
  cases answer : catalog name with
  | ok tree =>
      rw [answer] at h
      cases h
  | error e =>
      rw [answer] at h
      cases h
      rfl

/-- The search for names does not fail for the depth where there is room for all chains of formulas. -/
theorem not_tooDeep_expand (registry : r = .builtin) (shallow : catalog.Shallow) {depth room : Nat}
    (nests : e.Nests catalog depth) (fits : depth < room) {stack : List String} {found : Dependencies}
    (h : (expand r store room stack found e).run catalog = .error err) : ¬err.TooDeep := by
  induction depth generalizing e room stack found with
  | zero =>
      obtain ⟨room, rfl⟩ : ∃ n, room = n + 1 := ⟨room - 1, by omega⟩
      rw [run_expand] at h
      rcases error_of_bind h with unread | ⟨read, hread, h⟩
      · obtain ⟨name, failed⟩ := direct_error unread
        exact shallow name err failed
      · obtain ⟨p, hp, -⟩ := error_of_foldlM h
        have reads := Registry.mem_seriesNames_of_reference registry ((stands_direct hread).2.1 p hp)
        rw [show e.seriesNames = [] from nests] at reads
        cases reads
  | succ depth ih =>
      obtain ⟨room, rfl⟩ : ∃ n, room = n + 1 := ⟨room - 1, by omega⟩
      rw [run_expand] at h
      rcases error_of_bind h with unread | ⟨read, hread, h⟩
      · obtain ⟨name, failed⟩ := direct_error unread
        exact shallow name err failed
      · obtain ⟨p, hp, found, h⟩ := error_of_foldlM h
        have reads := Registry.mem_seriesNames_of_reference registry ((stands_direct hread).2.1 p hp)
        unfold visit at h
        split at h
        · rintro ⟨limit, path, rfl⟩
          cases h
        · split at h
          · rcases error_of_bind h with failed | ⟨tree, named, h⟩
            · exact shallow _ err failed
            · cases tree with
              | none => cases h
              | some tree => exact ih (nests _ reads tree named) (by omega) h
          · cases h

end Dependencies

namespace Staircase

/-- Why a name cannot be followed where a chain of formulas may get longer. -/
theorem followFormula_error {stack : List String} {leaf : α} {go : List String → Expr → Query α}
    {name : String} (h : (Query.followFormula stack leaf (some go) name).run catalog = .error err) :
    err = .cyclicFormula name ∨ catalog name = .error err ∨
      ∃ tree, catalog name = .ok (some tree) ∧ (go (stack ++ [name]) tree).run catalog = .error err := by
  unfold Query.followFormula at h
  split at h
  · cases h
    exact .inl rfl
  · rcases Query.error_of_run_bind h with unread | ⟨tree, named, h⟩
    · rw [Query.run_formula] at unread
      exact .inr (.inl unread)
    · rw [Query.run_formula] at named
      cases tree with
      | some tree => exact .inr (.inr ⟨tree, named, h⟩)
      | none => cases h

theorem callsArePointwise_error {follow : String → Query Bool} {calls : List Call}
    (h : (callsArePointwise r follow calls).run catalog = .error err) :
    ∃ call ∈ calls, ∃ name, call.seriesName? = some name ∧ (follow name).run catalog = .error err := by
  induction calls with
  | nil => cases h
  | cons call rest ih =>
      have later : (callsArePointwise r follow rest).run catalog = .error err →
          ∃ other ∈ call :: rest, ∃ name, other.seriesName? = some name ∧
            (follow name).run catalog = .error err := by
        intro h
        obtain ⟨other, hother, found⟩ := ih h
        exact ⟨other, List.mem_cons_of_mem _ hother, found⟩
      unfold callsArePointwise at h
      split at h
      · split at h
        · exact later h
        · rename_i name named
          split at h
          · rcases Query.error_of_run_bind h with failed | ⟨pointwise, -, h⟩
            · exact ⟨call, List.mem_cons_self, name, named, failed⟩
            · cases pointwise with
              | true => exact later h
              | false => cases h
          · cases h
      · cases h

/-- Whether an expression looks at one instant at a time can be told where there is room for all chains of
    formulas. -/
theorem not_tooDeep_isPointwiseAt (shallow : catalog.Shallow) {depth : Nat}
    (nests : e.Nests catalog depth) {stack : List String}
    (h : (isPointwiseAt r depth stack e).run catalog = .error err) : ¬err.TooDeep := by
  induction depth generalizing e stack with
  | zero =>
      obtain ⟨call, hcall, name, named, -⟩ := callsArePointwise_error h
      have reads := Expr.mem_seriesNames_of_call hcall named
      rw [show e.seriesNames = [] from nests] at reads
      cases reads
  | succ depth ih =>
      obtain ⟨call, hcall, name, named, failed⟩ := callsArePointwise_error h
      rcases followFormula_error failed with rfl | unread | ⟨tree, known, failed⟩
      · rintro ⟨limit, path, same⟩
        cases same
      · exact shallow name err unread
      · exact ih (nests name (Expr.mem_seriesNames_of_call hcall named) tree known) failed

theorem datesOfCalls_error {follow : String → Query (List Instant)} {calls : List Call}
    (h : (datesOfCalls env context follow calls).run catalog = .error err) :
    ∃ call ∈ calls, (datesOfCall env context call).run catalog = .error err ∨
      ∃ name, call.seriesName? = some name ∧ (follow name).run catalog = .error err := by
  induction calls with
  | nil => cases h
  | cons call rest ih =>
      rw [datesOfCalls_cons] at h
      rcases Query.error_of_run_bind h with own | ⟨_, -, h⟩
      · exact ⟨call, List.mem_cons_self, .inl own⟩
      · rcases Query.error_of_run_bind h with below | ⟨_, -, h⟩
        · refine ⟨call, List.mem_cons_self, .inr ?_⟩
          cases named : call.seriesName? with
          | none =>
              rw [named] at below
              cases below
          | some name =>
              rw [named] at below
              exact ⟨name, rfl, below⟩
        · rcases Query.error_of_run_bind h with others | ⟨_, -, h⟩
          · obtain ⟨other, hother, found⟩ := ih others
            exact ⟨other, List.mem_cons_of_mem _ hother, found⟩
          · cases h

/-- An application in a tree that is read with an expression fails to tell its own revision dates. -/
def OwnDatesFail (env : Env) (catalog : Catalog) (context : Context) (e : Expr) (err : Error) : Prop :=
  ∃ tree, e.Opens catalog tree ∧ ∃ call ∈ tree.calls,
    (datesOfCall env context call).run catalog = .error err

/-- Where there is room for all chains of formulas, only the evaluation that an operator needs for its own
    revision dates may be too deep. -/
theorem ownDatesFail_of_tooDeep (shallow : catalog.Shallow) {depth : Nat} {tree : Expr}
    (nests : tree.Nests catalog depth) (opens : e.Opens catalog tree) {stack : List String}
    (h : (ownDatesAt env context depth stack tree).run catalog = .error err) (deep : err.TooDeep) :
    OwnDatesFail env catalog context e err := by
  induction depth generalizing tree stack with
  | zero =>
      obtain ⟨call, hcall, own | ⟨name, named, -⟩⟩ := datesOfCalls_error h
      · exact ⟨tree, opens, call, hcall, own⟩
      · have reads := Expr.mem_seriesNames_of_call hcall named
        rw [show tree.seriesNames = [] from nests] at reads
        cases reads
  | succ depth ih =>
      obtain ⟨call, hcall, own | ⟨name, named, failed⟩⟩ := datesOfCalls_error h
      · exact ⟨tree, opens, call, hcall, own⟩
      · have reads := Expr.mem_seriesNames_of_call hcall named
        rcases followFormula_error failed with rfl | unread | ⟨below, known, failed⟩
        · obtain ⟨limit, path, same⟩ := deep
          cases same
        · exact absurd deep (shallow name err unread)
        · exact ih (nests name reads below known) (opens.formula reads known) failed

theorem revisionDates_tooDeep (builtin : env.registry = .builtin) (shallow : catalog.Shallow)
    (nests : e.Nests catalog Limits.resolveDepth) {bound : Window}
    (h : (revisionDates env context e bound).run catalog = .error err) (deep : err.TooDeep) :
    OwnDatesFail env catalog context e err := by
  rcases Query.error_of_run_bind h with unread | ⟨_, -, h⟩
  · rcases Query.error_of_run_bind unread with failed | ⟨_, -, same⟩
    · exact absurd deep
        (Dependencies.not_tooDeep_expand builtin shallow nests (Nat.lt_succ_self _) failed)
    · cases same
  · rcases Query.error_of_run_bind h with stored | ⟨_, -, h⟩
    · rw [Query.run_forEach] at stored
      obtain ⟨leaf, -, failed⟩ := error_of_mapM stored
      rw [run_leafDates] at failed
      cases check : env.checkpoint ⟨leaf⟩ with
      | ok _ =>
          rw [check] at failed
          cases failed
      | error e =>
          rw [check] at failed
          cases failed
          exact absurd deep (Env.not_tooDeep_checkpoint check)
    · rcases Query.error_of_run_bind h with own | ⟨_, -, same⟩
      · exact ownDatesFail_of_tooDeep shallow nests .self own deep
      · cases same

/-- Expressions nest no deeper than the formulas in them can be followed. -/
theorem nests_of_followed {P : Nat → Expr → Prop}
    (follow : ∀ depth e, P depth e → ∀ name ∈ e.seriesNames, ∃ less, depth = less + 1 ∧
      ∀ tree, catalog name = .ok (some tree) → P less tree)
    {depth : Nat} (h : P depth e) : e.Nests catalog depth := by
  induction depth generalizing e with
  | zero =>
      refine List.eq_nil_iff_forall_not_mem.2 fun name reads => ?_
      obtain ⟨less, none, -⟩ := follow 0 e h name reads
      cases none
  | succ depth ih =>
      intro name reads tree named
      obtain ⟨less, same, followed⟩ := follow (depth + 1) e h name reads
      cases same
      exact ih (followed tree named)

/-- What is known to look at one instant at a time nests no deeper than there is room. -/
theorem nests_of_isPointwiseAt {depth : Nat} {stack : List String}
    (h : (isPointwiseAt r depth stack e).run catalog = .ok true) : e.Nests catalog depth := by
  refine nests_of_followed (P := fun depth e =>
    ∃ stack, (isPointwiseAt r depth stack e).run catalog = .ok true) ?_ ⟨stack, h⟩
  rintro depth e ⟨stack, h⟩ name reads
  obtain ⟨call, hcall, named⟩ := List.mem_filterMap.1 reads
  cases depth with
  | zero =>
      obtain ⟨go, _, none, -⟩ := followFormula_ok ((callsArePointwise_ok h hcall).2 name named).2
      cases none
  | succ depth =>
      obtain ⟨go, _, same, known, followed⟩ :=
        followFormula_ok ((callsArePointwise_ok h hcall).2 name named).2
      refine ⟨depth, rfl, fun tree answer => ?_⟩
      cases same
      cases known.symm.trans answer
      exact ⟨_, followed⟩

/-- What has revision dates of its own nests no deeper than there is room. -/
theorem nests_of_ownDatesAt {depth : Nat} {stack : List String} {own : List Instant}
    (h : (ownDatesAt env context depth stack e).run catalog = .ok own) : e.Nests catalog depth := by
  refine nests_of_followed (P := fun depth e =>
    ∃ stack own, (ownDatesAt env context depth stack e).run catalog = .ok own) ?_ ⟨stack, own, h⟩
  rintro depth e ⟨stack, own, h⟩ name reads
  obtain ⟨call, hcall, named⟩ := List.mem_filterMap.1 reads
  cases depth with
  | zero =>
      obtain ⟨below, follow, -⟩ := (datesOfCalls_ok h hcall).2 name named
      obtain ⟨go, _, none, -⟩ := followFormula_ok follow
      cases none
  | succ depth =>
      obtain ⟨below, follow, -⟩ := (datesOfCalls_ok h hcall).2 name named
      obtain ⟨go, _, same, known, followed⟩ := followFormula_ok follow
      refine ⟨depth, rfl, fun tree answer => ?_⟩
      cases same
      cases known.symm.trans answer
      exact ⟨_, below, followed⟩

/-- Revision dates are only found for what nests no deeper than the limit. -/
theorem nests_of_revisionDates {bound : Window} {dates : List Instant}
    (h : (revisionDates env context e bound).run catalog = .ok dates) :
    e.Nests catalog Limits.resolveDepth := by
  obtain ⟨found, own, -, -, hown, -⟩ := revisionDates_ok_iff.1 h
  exact nests_of_ownDatesAt hown

end Staircase

end SeriesLang
