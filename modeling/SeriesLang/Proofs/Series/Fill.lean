import SeriesLang.Series.Fill

/-! # Filled cells

Which missing cells of a column are filled, and with what. A pass of a method gives a missing cell the value of
the last defined cell that it met, if that one is near enough; a constant is given to the first missing cells.
The limit of a method counts how far a value is carried, the limit of a constant how often it is given.
-/

namespace SeriesLang

/-- A pass of the method meets the cell `j` before the cell `i`. -/
def FillMethod.Meets : FillMethod → Nat → Nat → Prop
  | .forward, j, i => j < i
  | .backward, j, i => i < j

/-- The other direction. -/
def FillMethod.opposite : FillMethod → FillMethod
  | .forward => .backward
  | .backward => .forward

namespace Fill

variable {limit : Option Nat} {cells : List (Option Float)} {c : Option Float} {m : FillMethod}
  {i j : Nat} {v x : Float}

/-- The value of the cell `j` is carried to the cell `i`: between the two all cells are missing, and they are
    no further apart than the limit. -/
structure Carries (m : FillMethod) (limit : Option Nat) (cells : List (Option Float)) (j i : Nat)
    (v : Float) : Prop where
  meets : m.Meets j i
  value : cells[j]? = some (some v)
  between : ∀ k, m.Meets j k → m.Meets k i → cells[k]? = some none
  near : ∀ most ∈ limit, i ≤ j + most ∧ j ≤ i + most

/-- A pass leaves the value in the cell `i`: it stood there, or it is carried to a missing cell. -/
def Leaves (m : FillMethod) (limit : Option Nat) (cells : List (Option Float)) (i : Nat) (v : Float) : Prop :=
  cells[i]? = some (some v) ∨ cells[i]? = some none ∧ ∃ j, Carries m limit cells j i v

section Forward

theorem carries_cons_succ :
    Carries .forward limit (c :: cells) (j + 1) (i + 1) v ↔ Carries .forward limit cells j i v := by
  constructor
  · intro h
    refine ⟨Nat.lt_of_succ_lt_succ h.meets, h.value, fun k first second => ?_, fun most hmost => ?_⟩
    · exact h.between (k + 1) (Nat.succ_lt_succ first) (Nat.succ_lt_succ second)
    · have near := h.near most hmost
      omega
  · intro h
    refine ⟨Nat.succ_lt_succ h.meets, h.value, fun k first second => ?_, fun most hmost => ?_⟩
    · cases k with
      | zero => cases first
      | succ k => exact h.between k (Nat.lt_of_succ_lt_succ first) (Nat.lt_of_succ_lt_succ second)
    · have near := h.near most hmost
      omega

theorem carries_cons_zero : Carries .forward limit (c :: cells) 0 (i + 1) v ↔
    c = some v ∧ (∀ k < i, cells[k]? = some none) ∧ ∀ most ∈ limit, i < most := by
  constructor
  · intro h
    refine ⟨Option.some.inj h.value, fun k hk => ?_, fun most hmost => ?_⟩
    · exact h.between (k + 1) (Nat.succ_pos k) (Nat.succ_lt_succ hk)
    · have near := h.near most hmost
      omega
  · rintro ⟨rfl, between, near⟩
    refine ⟨Nat.succ_pos i, rfl, fun k first second => ?_, fun most hmost => ?_⟩
    · cases k with
      | zero => cases first
      | succ k => exact between k (Nat.lt_of_succ_lt_succ second)
    · have near := near most hmost
      omega

theorem exists_carries_cons : (∃ j, Carries .forward limit (c :: cells) j (i + 1) v) ↔
    (∃ j, Carries .forward limit cells j i v) ∨
      c = some v ∧ (∀ k < i, cells[k]? = some none) ∧ ∀ most ∈ limit, i < most := by
  rw [← Nat.or_exists_add_one, carries_cons_zero, or_comm]
  simp only [carries_cons_succ]

/-- A column that is filled behind a last value and a number of missing cells since then. -/
def carryOn (limit : Option Nat) : Option Float → Nat → List (Option Float) → List (Option Float)
  | _, _, [] => []
  | _, _, some v :: rest => some v :: carryOn limit (some v) 0 rest
  | last, run, none :: rest =>
    (if limit.all (run < ·) then last else none) :: carryOn limit last (run + 1) rest

theorem foldl_step (p : Pass) : (cells.foldl (Pass.step limit) p).cells =
    (carryOn limit p.last p.run cells).reverse ++ p.cells := by
  induction cells generalizing p with
  | nil => rfl
  | cons c rest ih =>
      rw [List.foldl_cons, ih]
      cases c <;> simp [Pass.step, carryOn]

theorem propagate_eq : propagate limit cells = carryOn limit none 0 cells := by
  rw [propagate, foldl_step]
  simp

theorem length_carryOn {last : Option Float} {run : Nat} :
    (carryOn limit last run cells).length = cells.length := by
  induction cells generalizing last run with
  | nil => rfl
  | cons c rest ih => cases c <;> simp [carryOn, ih]

/-- A missing cell takes a value of the column, or the one from before it if all cells in front are missing. -/
theorem getElem?_carryOn {last : Option Float} {run : Nat} :
    (carryOn limit last run cells)[i]? = some (some v) ↔
      cells[i]? = some (some v) ∨ cells[i]? = some none ∧ ((∃ j, Carries .forward limit cells j i v) ∨
        last = some v ∧ (∀ k < i, cells[k]? = some none) ∧ ∀ most ∈ limit, run + i < most) := by
  induction cells generalizing last run i with
  | nil => simp [carryOn]
  | cons c rest ih =>
      cases i with
      | zero =>
          have nothing : ¬ ∃ j, Carries .forward limit (c :: rest) j 0 v := fun ⟨_, h⟩ => nomatch h.meets
          cases c with
          | some w => simp [carryOn]
          | none =>
              have reached : limit.all (run < ·) = true ↔ ∀ most ∈ limit, run < most := by
                cases limit <;> simp
              simp only [carryOn, reached, List.getElem?_cons_zero, nothing]
              split <;> simp_all
      | succ i =>
          rw [exists_carries_cons]
          cases c with
          | some w =>
              -- The cells behind a defined one know nothing of what came before it.
              have front : ¬ ∀ k < i + 1, (some w :: rest)[k]? = some none :=
                fun all => nomatch all 0 (Nat.succ_pos i)
              simp only [carryOn, List.getElem?_cons_succ, ih, Nat.zero_add, front, false_and, and_false,
                or_false]
          | none =>
              have front : (∀ k < i + 1, (none :: rest)[k]? = some none) ↔
                  ∀ k < i, rest[k]? = some (none : Option Float) := by
                rw [Nat.forall_lt_succ_left]
                simp
              have count : run + 1 + i = run + (i + 1) := by omega
              simp only [carryOn, List.getElem?_cons_succ, ih, front, count, reduceCtorEq, false_and, or_false]

end Forward

section Mirror

/-- What is carried one way is carried the other way in the reversed column. -/
theorem Carries.reverse (h : Carries m limit cells j i v) (hi : i < cells.length) :
    Carries m.opposite limit cells.reverse (cells.length - 1 - j) (cells.length - 1 - i) v := by
  have hj : j < cells.length := (List.getElem?_eq_some_iff.1 h.value).1
  have mirror : ∀ k < cells.length, cells.reverse[k]? = cells[cells.length - 1 - k]? :=
    fun k hk => List.getElem?_reverse hk
  constructor
  · have meets := h.meets
    cases m <;> simp only [FillMethod.Meets, FillMethod.opposite] at meets ⊢ <;> omega
  · rw [mirror _ (by omega), ← h.value]
    congr 1
    omega
  · intro k first second
    have inside : k < cells.length := by
      cases m <;> simp only [FillMethod.Meets, FillMethod.opposite] at first second <;> omega
    rw [mirror k inside]
    apply h.between
    · cases m <;> simp only [FillMethod.Meets, FillMethod.opposite] at first ⊢ <;> omega
    · cases m <;> simp only [FillMethod.Meets, FillMethod.opposite] at second ⊢ <;> omega
  · intro most hmost
    have near := h.near most hmost
    omega

theorem exists_carries_reverse (hi : i < cells.length) :
    (∃ j, Carries .forward limit cells.reverse j (cells.length - 1 - i) v) ↔
      ∃ j, Carries .backward limit cells j i v := by
  constructor
  · rintro ⟨j, h⟩
    have back := h.reverse (by rw [List.length_reverse]; omega)
    have place : cells.length - 1 - (cells.length - 1 - i) = i := by omega
    rw [List.reverse_reverse, List.length_reverse, place] at back
    exact ⟨_, back⟩
  · rintro ⟨j, h⟩
    exact ⟨_, h.reverse hi⟩

end Mirror

theorem length_byMethod : (byMethod limit cells m).length = cells.length := by
  cases m <;> simp [byMethod, propagate_eq, length_carryOn]

/-- What one pass leaves in a cell. -/
theorem getElem?_byMethod :
    (byMethod limit cells m)[i]? = some (some v) ↔ Leaves m limit cells i v := by
  cases m with
  | forward =>
      rw [byMethod, propagate_eq, getElem?_carryOn]
      simp only [Leaves, reduceCtorEq, false_and, or_false]
  | backward =>
      by_cases hi : i < cells.length
      · have inside : i < (carryOn limit none 0 cells.reverse).length := by
          rw [length_carryOn, List.length_reverse]
          exact hi
        rw [byMethod, propagate_eq, List.getElem?_reverse inside, length_carryOn, List.length_reverse,
          getElem?_carryOn, exists_carries_reverse hi, List.getElem?_reverse (by omega)]
        have place : cells.length - 1 - (cells.length - 1 - i) = i := by omega
        simp only [Leaves, place, reduceCtorEq, false_and, or_false]
      · have outside := Nat.le_of_not_lt hi
        have absent : cells[i]? = none := List.getElem?_eq_none outside
        have absent' : (byMethod limit cells .backward)[i]? = none :=
          List.getElem?_eq_none (length_byMethod.symm ▸ outside)
        simp [Leaves, absent, absent']

section Passes

variable {methods : List FillMethod}

theorem missing_byMethod (h : (byMethod limit cells m)[i]? = some none) : cells[i]? = some none := by
  have same : (byMethod limit cells m).length = cells.length := length_byMethod
  have hi : i < cells.length := same ▸ (List.getElem?_eq_some_iff.1 h).1
  cases value : cells[i] with
  | none => exact List.getElem?_eq_some_iff.2 ⟨hi, value⟩
  | some v =>
      have kept := getElem?_byMethod.2 (.inl (List.getElem?_eq_some_iff.2 ⟨hi, value⟩) :
        Leaves m limit cells i v)
      cases h.symm.trans kept

/-- Without a limit a value is carried to every cell that the pass meets behind a defined one. -/
theorem exists_carries {k : Nat} (hi : i < cells.length) (met : m.Meets k i)
    (value : cells[k]? = some (some x)) : ∃ j v, Carries m none cells j i v := by
  induction distance : i - k + (k - i) using Nat.strongRecOn generalizing k x with
  | ind distance ih =>
      by_cases between : ∀ l, m.Meets k l → m.Meets l i → cells[l]? = some none
      · exact ⟨k, x, met, value, between, fun _ hmost => nomatch hmost⟩
      · simp only [Classical.not_forall] at between
        obtain ⟨l, first, second, defined⟩ := between
        have hk : k < cells.length := (List.getElem?_eq_some_iff.1 value).1
        have hl : l < cells.length := by
          cases m <;> simp only [FillMethod.Meets] at first second <;> omega
        obtain ⟨w, hw⟩ : ∃ w, cells[l] = some w := by
          refine Option.ne_none_iff_exists'.1 fun missing => defined ?_
          exact List.getElem?_eq_some_iff.2 ⟨hl, missing⟩
        refine ih (i - l + (l - i)) ?_ second (List.getElem?_eq_some_iff.2 ⟨hl, hw⟩) rfl
        cases m <;> simp only [FillMethod.Meets] at met first second <;> omega

/-- Without a limit a pass leaves a cell empty only if it has met nothing else. -/
theorem missing_met (h : (byMethod none cells m)[i]? = some none) {k : Nat} (met : m.Meets k i) :
    cells[k]? ≠ some (some x) := by
  intro value
  have missing := missing_byMethod h
  obtain ⟨j, v, carries⟩ := exists_carries (List.getElem?_eq_some_iff.1 missing).1 met value
  cases h.symm.trans (getElem?_byMethod.2 (.inr ⟨missing, j, carries⟩))

theorem missing_foldl (h : (methods.foldl (byMethod limit) cells)[i]? = some none) :
    cells[i]? = some none := by
  induction methods generalizing cells with
  | nil => exact h
  | cons m rest ih => exact missing_byMethod (ih h)

theorem length_foldl : (methods.foldl (byMethod limit) cells).length = cells.length := by
  induction methods generalizing cells with
  | nil => rfl
  | cons m rest ih => rw [List.foldl_cons, ih, length_byMethod]

theorem missing_met_foldl (hm : m ∈ methods) (h : (methods.foldl (byMethod none) cells)[i]? = some none)
    {k : Nat} (met : m.Meets k i) : cells[k]? ≠ some (some x) := by
  induction methods generalizing cells with
  | nil => cases hm
  | cons first rest ih =>
      rcases List.mem_cons.1 hm with rfl | hm
      · exact missing_met (missing_foldl h) met
      · intro value
        exact ih hm h (getElem?_byMethod.2 (.inl value))

/-- Both methods without a limit leave a cell empty only if all of them were. -/
theorem all_missing (forward : .forward ∈ methods) (backward : .backward ∈ methods)
    (h : none ∈ methods.foldl (byMethod none) cells) : ∀ c ∈ cells, c = none := by
  obtain ⟨i, empty⟩ := List.mem_iff_getElem?.1 h
  intro c hc
  obtain ⟨k, hk⟩ := List.mem_iff_getElem?.1 hc
  cases c with
  | none => rfl
  | some v =>
      exfalso
      rcases Nat.lt_trichotomy k i with before | rfl | behind
      · exact missing_met_foldl forward empty before hk
      · cases hk.symm.trans (missing_foldl empty)
      · exact missing_met_foldl backward empty behind hk

end Passes

section Constant

/-- A column in which a value is given to the missing cells as long as the budget lasts. -/
def spend (x : Float) : Option Nat → List (Option Float) → List (Option Float)
  | _, [] => []
  | budget, some v :: rest => some v :: spend x budget rest
  | none, none :: rest => some x :: spend x none rest
  | some 0, none :: rest => none :: spend x (some 0) rest
  | some (n + 1), none :: rest => some x :: spend x (some n) rest

theorem foldl_constantStep {budget : Option Nat} {acc : List (Option Float)} :
    (cells.foldl (constantStep x) (budget, acc)).2 = (spend x budget cells).reverse ++ acc := by
  induction cells generalizing budget acc with
  | nil => rfl
  | cons c rest ih =>
      rw [List.foldl_cons]
      cases c with
      | some v => simp [constantStep, spend, ih]
      | none =>
          rcases budget with _ | _ | n <;> simp [constantStep, spend, ih]

theorem constant_eq : constant x limit cells = spend x limit cells := by
  rw [constant, foldl_constantStep]
  simp

theorem length_spend : (spend x limit cells).length = cells.length := by
  induction cells generalizing limit with
  | nil => rfl
  | cons c rest ih =>
      cases c with
      | some v => simp [spend, ih]
      | none => rcases limit with _ | _ | n <;> simp [spend, ih]

/-- The first missing cells take the value, as many as the limit says. -/
theorem getElem?_spend : (spend x limit cells)[i]? = some (some v) ↔ cells[i]? = some (some v) ∨
    cells[i]? = some none ∧ v = x ∧ ∀ most ∈ limit, (cells.take i).countP Option.isNone < most := by
  induction cells generalizing limit i with
  | nil => simp [spend]
  | cons c rest ih =>
      cases i with
      | zero =>
          cases c with
          | some w => simp [spend]
          | none => rcases limit with _ | _ | n <;> simp [spend, eq_comm]
      | succ i =>
          cases c with
          | some w => simp [spend, ih]
          | none => rcases limit with _ | _ | n <;> simp [spend, ih]

end Constant

theorem length_column (options : SeriesOptions) (cells : List (Option Float)) :
    (column options cells).length = cells.length := by
  unfold column
  split
  · rfl
  · rw [constant_eq, length_spend]
  · exact length_foldl

/-- What a fill policy makes of every cell of a column. A method carries values up to its limit, one method works
    on what the ones before it have left, and a constant is given to the first missing cells. -/
theorem column_exact (limit : Option Nat) (weight : Option Float) (cells : List (Option Float)) :
    (∀ m, (byMethod limit cells m).length = cells.length ∧
      ∀ i v, (byMethod limit cells m)[i]? = some (some v) ↔ Leaves m limit cells i v) ∧
    (∀ methods, column ⟨some (.methods methods), limit, weight⟩ cells =
      methods.foldl (byMethod limit) cells) ∧
    (∀ x, (column ⟨some (.value x), limit, weight⟩ cells).length = cells.length ∧
      ∀ i v, (column ⟨some (.value x), limit, weight⟩ cells)[i]? = some (some v) ↔
        cells[i]? = some (some v) ∨ cells[i]? = some none ∧ v = x ∧
          ∀ most ∈ limit, (cells.take i).countP Option.isNone < most) ∧
    ∀ methods, limit = none → .forward ∈ methods → .backward ∈ methods →
      none ∈ column ⟨some (.methods methods), limit, weight⟩ cells → ∀ c ∈ cells, c = none := by
  refine ⟨fun m => ⟨length_byMethod, fun i v => getElem?_byMethod⟩, fun methods => rfl,
    fun x => ⟨length_column _ cells, fun i v => ?_⟩, fun methods unlimited forward backward empty => ?_⟩
  · have filled : column ⟨some (.value x), limit, weight⟩ cells = spend x limit cells := constant_eq
    rw [filled, getElem?_spend]
  · subst unlimited
    exact all_missing forward backward empty

/-- Forward and then backward, without a limit: both edges of the column are filled. -/
theorem column_exact_edges :
    let cells : List (Option Float) := [none, some 3, none, some 5, none]
    let options : SeriesOptions := { fill := some (.methods [.forward, .backward]) }
    column options cells = [some 3, some 3, some 3, some 5, some 5] ∧ none ∉ column options cells := by
  intro cells options
  refine ⟨by decide +kernel, fun empty => ?_⟩
  have all := (column_exact none none cells).2.2.2 [.forward, .backward] rfl (by decide) (by decide) empty
  cases all (some 3) (by simp [cells])

end Fill

end SeriesLang
