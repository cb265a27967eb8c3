import SeriesLang.Proofs.Expr.Rename
import SeriesLang.Proofs.Query.Folded
import SeriesLang.Proofs.Query.Inlined

/-! # Writing expanded expressions

To write formulas in an expression and to fold its constants gives no parts that cannot be read, but it may
nest them deeper than texts are read.
-/

namespace SeriesLang.Expr

mutual

/-- How deep applications stand within one another. -/
def nesting : Expr → Nat
  | .literal _ => 0
  | .symbol _ => 0
  | .call ⟨_, args, kwargs⟩ => max (nestingOfArgs args) (nestingOfKwargs kwargs) + 1

/-- The deepest nesting of positional arguments. -/
def nestingOfArgs : List Expr → Nat
  | [] => 0
  | e :: rest => max (nesting e) (nestingOfArgs rest)

/-- The deepest nesting of keyword values. -/
def nestingOfKwargs : List (String × Expr) → Nat
  | [] => 0
  | (_, e) :: rest => max (nesting e) (nestingOfKwargs rest)

end

theorem nesting_le_of_mem {args : List Expr} {e : Expr} (h : e ∈ args) :
    e.nesting ≤ nestingOfArgs args := by
  induction args with
  | nil => cases h
  | cons first rest ih =>
      rw [nestingOfArgs]
      rcases List.mem_cons.1 h with rfl | h
      · exact Nat.le_max_left _ _
      · exact Nat.le_trans (ih h) (Nat.le_max_right _ _)

theorem nesting_le_of_mem_kwargs {kwargs : List (String × Expr)} {p : String × Expr} (h : p ∈ kwargs) :
    p.2.nesting ≤ nestingOfKwargs kwargs := by
  induction kwargs with
  | nil => cases h
  | cons first rest ih =>
      rw [nestingOfKwargs]
      rcases List.mem_cons.1 h with rfl | h
      · exact Nat.le_max_left _ _
      · exact Nat.le_trans (ih h) (Nat.le_max_right _ _)

/-- An expression whose parts can be read. -/
def Writable (e : Expr) : Prop :=
  ∃ room, Readable room e

/-- Parts that can be read are read together where there is room for their nesting. -/
theorem Readable.of_nesting {room : Nat} {e : Expr} (h : Readable room e) {other : Nat}
    (fits : e.nesting ≤ other) : Readable other e := by
  induction h generalizing other with
  | literal h => exact .literal h
  | symbol h => exact .symbol h
  | @call room op args kwargs name positional keys values sorted ihArgs ihKwargs =>
      rw [nesting] at fits
      obtain ⟨other, rfl⟩ : ∃ below, other = below + 1 := ⟨other - 1, by omega⟩
      refine .call name (fun e he => ihArgs e he ?_) keys (fun p hp => ihKwargs p hp ?_) sorted
      · have := nesting_le_of_mem he
        omega
      · have := nesting_le_of_mem_kwargs hp
        omega

theorem writable_call_iff {op : String} {args : List Expr} {kwargs : List (String × Expr)} :
    Writable (.call ⟨op, args, kwargs⟩) ↔ IsName op ∧ (∀ e ∈ args, Writable e) ∧
      (∀ p ∈ kwargs, Token.IsWord p.1.toList ∧ Writable p.2) ∧ Sorted.Ascending kwargs := by
  constructor
  · rintro ⟨room, h⟩
    cases h with
    | call name positional keys values sorted =>
        exact ⟨name, fun e he => ⟨_, positional e he⟩, fun p hp => ⟨keys p hp, _, values p hp⟩, sorted⟩
  · rintro ⟨name, positional, keywords, sorted⟩
    refine ⟨nesting (.call ⟨op, args, kwargs⟩), ?_⟩
    rw [nesting]
    refine .call name (fun e he => ?_) (fun p hp => (keywords p hp).1) (fun p hp => ?_) sorted
    · obtain ⟨room, h⟩ := positional e he
      exact h.of_nesting (Nat.le_trans (nesting_le_of_mem he) (Nat.le_max_left _ _))
    · obtain ⟨-, room, h⟩ := keywords p hp
      exact h.of_nesting (Nat.le_trans (nesting_le_of_mem_kwargs hp) (Nat.le_max_right _ _))

/-- Keywords of the same names whose values can be read as well. -/
theorem writable_kwargs {kwargs kwargs' : List (String × Expr)}
    (h : List.Forall₂ (fun p q => p.1 = q.1 ∧ (Writable p.2 → Writable q.2)) kwargs kwargs')
    (before : ∀ p ∈ kwargs, Token.IsWord p.1.toList ∧ Writable p.2) :
    ∀ p ∈ kwargs', Token.IsWord p.1.toList ∧ Writable p.2 := by
  induction h with
  | nil => simp
  | cons first _ ih =>
      obtain ⟨⟨word, writable⟩, rest⟩ := List.forall_mem_cons.1 before
      exact List.forall_mem_cons.2 ⟨⟨first.1 ▸ word, first.2 writable⟩, ih rest⟩

theorem writable_args {args args' : List Expr}
    (h : List.Forall₂ (fun e e' => Writable e → Writable e') args args')
    (before : ∀ e ∈ args, Writable e) : ∀ e ∈ args', Writable e := by
  induction h with
  | nil => simp
  | cons first _ ih =>
      obtain ⟨writable, rest⟩ := List.forall_mem_cons.1 before
      exact List.forall_mem_cons.2 ⟨first writable, ih rest⟩

/-- An application can be written whose arguments can be written as those of another one can. -/
theorem writable_of_similar {call call' : Call}
    (h : call.Similar (fun e e' => Writable e → Writable e') call') (before : Writable (.call call)) :
    Writable (.call call') := by
  obtain ⟨op, args, kwargs⟩ := call
  obtain ⟨_, args', kwargs'⟩ := call'
  obtain ⟨rfl, positional, keywords⟩ := h
  obtain ⟨name, before, named, sorted⟩ := writable_call_iff.1 before
  refine writable_call_iff.2 ⟨name, writable_args positional before, writable_kwargs keywords named, ?_⟩
  have names : kwargs.map Prod.fst = kwargs'.map Prod.fst :=
    Application.names_eq (R := fun e e' => Writable e → Writable e') keywords
  exact List.pairwise_map.1 (names ▸ List.pairwise_map.2 sorted)

/-- If the formulas of a catalog can be written, so can an expression with formulas written in it. -/
theorem Writable.inlineAt {catalog : Catalog}
    (stored : ∀ name tree, catalog name = .ok (some tree) → Writable tree) {room : Nat} {e e' : Expr}
    (h : (Expr.inlineAt room e).run catalog = .ok e') (before : Writable e) : Writable e' := by
  revert before
  refine inlineAt_induct (P := fun e e' => Writable e → Writable e') (fun _ h => h) (fun _ h => h)
    ?_ (fun similar => writable_of_similar similar) h
  rintro call tree e' ⟨name, -, -, answer⟩ ih -
  exact ih (stored name tree answer)

theorem writable_foldPair? {op : String} {a b e : Expr} (h : foldPair? op a b = some e) :
    Writable e := by
  unfold foldPair? at h
  dsimp only at h
  split at h
  · rename_i n exact
    cases h
    refine ⟨0, .literal ?_⟩
    split at exact
    · unfold foldInts? at exact
      split at exact
      · exact (Word.ofInt?_eq_some_iff.1 exact).1 ▸ (Word.ofInt?_eq_some_iff.1 exact).2
      · exact (Word.ofInt?_eq_some_iff.1 exact).1 ▸ (Word.ofInt?_eq_some_iff.1 exact).2
      · cases exact
    · cases exact
  · split at h
    · obtain ⟨v, value, rfl⟩ := Option.map_eq_some_iff.1 h
      exact ⟨0, .literal (Option.filter_eq_some_iff.1 value).2⟩
    · cases h

/-- An expression whose constants are folded can be written if it could be before. -/
theorem Writable.foldConstants (e : Expr) (h : Writable e) : Writable e.foldConstants := by
  have folded : Folded fun e e' => Writable e → Writable e' :=
    { literal := fun _ h => h
      symbol := fun _ h => h
      call := fun similar => writable_of_similar similar
      pair := fun _ folded _ => writable_foldPair? folded }
  exact folded.foldConstants e h

/-- The canonical text of an expression that can be written is read as it, unless it nests too deep. -/
theorem ofText_canonical_of_writable {e : Expr} (h : Writable e) (fits : e.nesting ≤ maxNesting) :
    ofText e.canonical = .ok e := by
  obtain ⟨room, h⟩ := h
  exact ofText_eq_ok_iff.2 (parse_canonical_of_readable (h.of_nesting fits))

end SeriesLang.Expr
