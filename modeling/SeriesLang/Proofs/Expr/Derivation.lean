import Mathlib.Logic.Relation
import SeriesLang.Proofs.Expr.Words
import SeriesLang.Proofs.Sorted

/-! # Derivations

    expr ::= literal | symbol | ( symbol expr* (#:name expr)* )

A derivation covers tokens and yields a tree. Its keyword pairs stand in the order of the text, which the
tree forgets: it keeps them by name.
-/

namespace SeriesLang

inductive Derivation where
  | literal (token : Token) (value : Literal)
  | symbol (name : String)
  | list (op : String) (args : List Derivation) (kwargs : List (String × Derivation))

namespace Derivation

mutual

/-- The tokens that a derivation covers. -/
def tokens : Derivation → List Token
  | .literal token _ => [token]
  | .symbol name => [.word name]
  | .list op args kwargs =>
    .openParen :: .word op :: (tokensOfArgs args ++ (tokensOfKwargs kwargs ++ [.closeParen]))

def tokensOfArgs : List Derivation → List Token
  | [] => []
  | d :: rest => tokens d ++ tokensOfArgs rest

def tokensOfKwargs : List (String × Derivation) → List Token
  | [] => []
  | (name, d) :: rest => .keyword name :: (tokens d ++ tokensOfKwargs rest)

end

mutual

/-- The tree of a derivation. -/
def tree : Derivation → Expr
  | .literal _ value => .literal value
  | .symbol name => .symbol name
  | .list op args kwargs => .call ⟨op, treesOfArgs args, Sorted.putAll (treesOfKwargs kwargs) []⟩

def treesOfArgs : List Derivation → List Expr
  | [] => []
  | d :: rest => tree d :: treesOfArgs rest

def treesOfKwargs : List (String × Derivation) → List (String × Expr)
  | [] => []
  | (name, d) :: rest => (name, tree d) :: treesOfKwargs rest

end

/-- Derivations whose tokens stand for their leaves, whose lists name each keyword once and lie at most
    so deep in each other. -/
inductive Valid : Nat → Derivation → Prop
  | literal {room token value} (h : token.Denotes value) : Valid room (.literal token value)
  | symbol {room name} (h : IsSymbol name) : Valid room (.symbol name)
  | list {room op args kwargs} (name : IsSymbol op) (positional : ∀ d ∈ args, Valid room d)
      (values : ∀ p ∈ kwargs, Valid room p.2) (distinct : (kwargs.map Prod.fst).Nodup) :
      Valid (room + 1) (.list op args kwargs)

/-- The keyword pairs of one list come in another order. -/
inductive Reorders : Derivation → Derivation → Prop
  | here {op args kwargs kwargs'} (h : kwargs.Perm kwargs') :
      Reorders (.list op args kwargs) (.list op args kwargs')
  | arg {op before after kwargs d d'} (h : Reorders d d') :
      Reorders (.list op (before ++ d :: after) kwargs) (.list op (before ++ d' :: after) kwargs)
  | value {op args before after name d d'} (h : Reorders d d') :
      Reorders (.list op args (before ++ (name, d) :: after))
        (.list op args (before ++ (name, d') :: after))

theorem tokensOfArgs_append (args more : List Derivation) :
    tokensOfArgs (args ++ more) = tokensOfArgs args ++ tokensOfArgs more := by
  induction args with
  | nil => rfl
  | cons d args ih => rw [List.cons_append, tokensOfArgs, ih, tokensOfArgs, List.append_assoc]

theorem tokensOfKwargs_append (kwargs more : List (String × Derivation)) :
    tokensOfKwargs (kwargs ++ more) = tokensOfKwargs kwargs ++ tokensOfKwargs more := by
  induction kwargs with
  | nil => rfl
  | cons p kwargs ih =>
      rw [List.cons_append, tokensOfKwargs, ih, tokensOfKwargs, List.cons_append, List.append_assoc]

theorem treesOfArgs_eq_map (args : List Derivation) : treesOfArgs args = args.map tree := by
  induction args with
  | nil => rfl
  | cons d args ih => rw [treesOfArgs, ih, List.map_cons]

theorem treesOfKwargs_eq_map (kwargs : List (String × Derivation)) :
    treesOfKwargs kwargs = kwargs.map (fun p => (p.1, p.2.tree)) := by
  induction kwargs with
  | nil => rfl
  | cons p kwargs ih => rw [treesOfKwargs, ih, List.map_cons]

theorem names_treesOfKwargs (kwargs : List (String × Derivation)) :
    (treesOfKwargs kwargs).map Prod.fst = kwargs.map Prod.fst := by
  rw [treesOfKwargs_eq_map, List.map_map]
  rfl

theorem Valid.push {room : Nat} {op : String} {args : List Derivation}
    {kwargs : List (String × Derivation)} {d : Derivation}
    (h : (Derivation.list op args kwargs).Valid (room + 1)) (hd : d.Valid room) :
    (Derivation.list op (args ++ [d]) kwargs).Valid (room + 1) := by
  cases h with
  | list name positional values distinct =>
      exact .list name (List.forall_mem_append.2 ⟨positional, List.forall_mem_singleton.2 hd⟩)
        values distinct

theorem Valid.pushKeyword {room : Nat} {op name : String} {args : List Derivation}
    {kwargs : List (String × Derivation)} {d : Derivation}
    (h : (Derivation.list op args kwargs).Valid (room + 1)) (hd : d.Valid room)
    (fresh : name ∉ kwargs.map Prod.fst) :
    (Derivation.list op args (kwargs ++ [(name, d)])).Valid (room + 1) := by
  cases h with
  | list symbol positional values distinct =>
      refine .list symbol positional
        (List.forall_mem_append.2 ⟨values, List.forall_mem_singleton.2 hd⟩) ?_
      rw [List.map_append, List.nodup_append]
      refine ⟨distinct, List.pairwise_singleton _ _, ?_⟩
      rintro a ha b hb rfl
      rw [List.mem_singleton.1 hb] at ha
      exact fresh ha

theorem treesOfKwargs_eq_nil {kwargs : List (String × Derivation)}
    (h : Sorted.putAll (treesOfKwargs kwargs) [] = []) : kwargs = [] := by
  cases kwargs with
  | nil => rfl
  | cons p kwargs =>
      have mem : Sorted.contains p.1 (Sorted.putAll (treesOfKwargs (p :: kwargs)) []) = true :=
        Sorted.contains_putAll.2 (.inl (by simp [names_treesOfKwargs]))
      rw [h] at mem
      cases mem

theorem putAll_snoc (kwargs : List (String × Derivation)) (name : String) (d : Derivation) :
    Sorted.putAll (treesOfKwargs (kwargs ++ [(name, d)])) [] =
      Sorted.put name d.tree (Sorted.putAll (treesOfKwargs kwargs) []) := by
  rw [treesOfKwargs_eq_map, treesOfKwargs_eq_map, List.map_append, Sorted.putAll, List.foldl_append]
  rfl

/-- Another order of keywords is as good, and yields the same tree. -/
theorem Reorders.same {d d' : Derivation} (h : Reorders d d') {room : Nat} (valid : d.Valid room) :
    d'.Valid room ∧ d'.tree = d.tree := by
  induction h generalizing room with
  | here h =>
      cases valid with
      | list name positional values distinct =>
          refine ⟨.list name positional (fun p hp => values p (h.mem_iff.2 hp))
            ((h.map Prod.fst).nodup_iff.1 distinct), ?_⟩
          rw [← names_treesOfKwargs] at distinct
          rw [tree, tree, Sorted.putAll_perm ?_ distinct]
          rw [treesOfKwargs_eq_map, treesOfKwargs_eq_map]
          exact h.map _
  | arg _ ih =>
      cases valid with
      | list name positional values distinct =>
          simp only [List.forall_mem_append, List.forall_mem_cons] at positional
          obtain ⟨before, here, after⟩ := positional
          obtain ⟨valid, same⟩ := ih here
          refine ⟨.list name ?_ values distinct, ?_⟩
          · simp only [List.forall_mem_append, List.forall_mem_cons]
            exact ⟨before, valid, after⟩
          · simp only [tree, treesOfArgs_eq_map, List.map_append, List.map_cons, same]
  | value _ ih =>
      cases valid with
      | list name positional values distinct =>
          simp only [List.forall_mem_append, List.forall_mem_cons] at values
          obtain ⟨before, here, after⟩ := values
          obtain ⟨valid, same⟩ := ih here
          refine ⟨.list name positional ?_ ?_, ?_⟩
          · simp only [List.forall_mem_append, List.forall_mem_cons]
            exact ⟨before, valid, after⟩
          · simpa only [List.map_append, List.map_cons] using distinct
          · simp only [tree, treesOfKwargs_eq_map, List.map_append, List.map_cons, same]

theorem same_of_reordered {d d' : Derivation} (h : Relation.ReflTransGen Reorders d d') {room : Nat}
    (valid : d.Valid room) : d'.Valid room ∧ d'.tree = d.tree := by
  induction h with
  | refl => exact ⟨valid, rfl⟩
  | tail _ last ih =>
      obtain ⟨valid, same⟩ := ih
      obtain ⟨valid, last⟩ := last.same valid
      exact ⟨valid, last.trans same⟩

end Derivation

end SeriesLang
