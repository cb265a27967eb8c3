import SeriesLang.Proofs.Operator.Plain
import SeriesLang.Proofs.Query.Run
import SeriesLang.Query.Editor

/-! # Rows of components

Which rows the table of components of a formula has, and what they stand for. A place is a list of argument
positions that leads from an expression to one of its parts. Between a row and its parts there are only sums
and products with a number in front; below a combinator every argument has a row of its own. A row shows
the last series that is read in it, and so does the row of the formula itself: it stands under the name
of the formula only if no series is read there.
-/

namespace SeriesLang

namespace ComponentRow

variable {store : Store} {catalog : Catalog}

/-- The operators whose arguments have rows of their own. -/
def combinators : List String :=
  ["add", "mul", "div", "min", "max", "priority", "row-mean", "row-min", "row-max", "std"]

/-- Behind a number in front of a sum or a product, an argument is in the row of the application. -/
inductive Shares : Expr → Nat → Expr → Prop
  | intro {op args kwargs index e} (scalar : op = "+" ∨ op = "*")
      (number : ∃ k, args.head?.bind Expr.number? = some k) (behind : 0 < index)
      (argument : args[index]? = some e) : Shares (.call ⟨op, args, kwargs⟩) index e

/-- An argument of a combinator has a row of its own. -/
inductive Splits : Expr → Nat → Expr → Prop
  | intro {op args kwargs index e} (combinator : op ∈ combinators) (argument : args[index]? = some e) :
      Splits (.call ⟨op, args, kwargs⟩) index e

/-- The parts of an expression that are in its row, by place. -/
inductive InRow : Expr → List Nat → Expr → Prop
  | self (e) : InRow e [] e
  | argument {e index a place b} (shares : Shares e index a) (rest : InRow a place b) :
      InRow e (index :: place) b

/-- The parts of an expression that have rows of their own, by place. -/
inductive Opens : Expr → List Nat → Expr → Prop
  | argument {e index a} (splits : Splits e index a) : Opens e [index] a
  | split {e index a place b} (splits : Splits e index a) (rest : Opens a place b) :
      Opens e (index :: place) b
  | shared {e index a place b} (shares : Shares e index a) (rest : Opens a place b) :
      Opens e (index :: place) b

/-- A series is read in the row of an expression, at a place. -/
def Shows (e : Expr) (place : List Nat) (name : String) : Prop :=
  ∃ call, InRow e place (.call call) ∧ call.seriesName? = some name

/-- The table of an expression asks for a series. -/
def Asks (e : Expr) (name : String) : Prop :=
  (∃ place, Shows e place name) ∨ ∃ place a within, Opens e place a ∧ Shows a within name

/-- Places from left to right, those inside of a part in front of the part. -/
inductive Before : List Nat → List Nat → Prop
  | inside (index place) : Before (index :: place) []
  | left {index index'} (less : index < index') (place place') :
      Before (index :: place) (index' :: place')
  | within {index place place'} (inner : Before place place') :
      Before (index :: place) (index :: place')

/-- What becomes of the row of an expression in which series are read at some places. It has the name and
    the kind of the last of them, and keeps its own if there is none. -/
inductive Fills (store : Store) (catalog : Catalog) (shown : List Nat → String → Prop)
    (row : ComponentRow) : ComponentRow → Prop
  | kept {after} (nothing : ∀ place name, ¬ shown place name) (name : after.name = row.name)
      (kind : after.kind = row.kind) (expression : after.expression = row.expression) :
      Fills store catalog shown row after
  | series {after place} (here : shown place after.name)
      (last : ∀ place' name, shown place' name → place' = place ∨ Before place' place)
      (kind : (RowKind.lookup store after.name).run catalog = .ok after.kind)
      (expression : after.expression = row.expression) : Fills store catalog shown row after

/-- There is one row for each part that has one, in the order of the places. -/
structure Lists (store : Store) (catalog : Catalog) (opened : List Nat → Expr → Prop)
    (places : List (List Nat)) (rows : List ComponentRow) : Prop where
  ordered : places.Pairwise Before
  mem_iff : ∀ place, place ∈ places ↔ ∃ e, opened place e
  rows : List.Forall₂ (fun place row => ∃ e, opened place e ∧
    Fills store catalog (Shows e) { expression := e } row) places rows

/-! ### Places -/

theorem Before.ne {place place' : List Nat} (h : Before place place') : place ≠ place' := by
  induction h with
  | inside => exact List.cons_ne_nil _ _
  | left less => exact fun same => Nat.ne_of_lt less (List.cons.inj same).1
  | within _ ih => exact fun same => ih (List.cons.inj same).2

theorem Opens.ne_nil {e a : Expr} {place : List Nat} (h : Opens e place a) : place ≠ [] := by
  cases h <;> exact List.cons_ne_nil _ _

theorem shows_call_iff {call : Call} {place : List Nat} {name : String} :
    Shows (.call call) place name ↔ place = [] ∧ call.seriesName? = some name ∨
      ∃ index a rest, place = index :: rest ∧ Shares (.call call) index a ∧ Shows a rest name := by
  constructor
  · rintro ⟨found, inRow, reads⟩
    cases inRow with
    | self => exact .inl ⟨rfl, reads⟩
    | argument shares below => exact .inr ⟨_, _, _, rfl, shares, found, below, reads⟩
  · rintro (⟨rfl, reads⟩ | ⟨index, a, rest, rfl, shares, found, below, reads⟩)
    · exact ⟨call, .self _, reads⟩
    · exact ⟨found, .argument shares below, reads⟩

theorem opens_iff {e b : Expr} {place : List Nat} :
    Opens e place b ↔ ∃ index rest a, place = index :: rest ∧
      (Splits e index a ∧ (rest = [] ∧ b = a ∨ Opens a rest b) ∨ Shares e index a ∧ Opens a rest b) := by
  constructor
  · intro h
    cases h with
    | argument splits => exact ⟨_, [], _, rfl, .inl ⟨splits, .inl ⟨rfl, rfl⟩⟩⟩
    | split splits below => exact ⟨_, _, _, rfl, .inl ⟨splits, .inr below⟩⟩
    | shared shares below => exact ⟨_, _, _, rfl, .inr ⟨shares, below⟩⟩
  · rintro ⟨index, rest, a, rfl, ⟨splits, ⟨rfl, rfl⟩ | below⟩ | ⟨shares, below⟩⟩
    · exact .argument splits
    · exact .split splits below
    · exact .shared shares below

theorem not_opens {e : Expr} (shares : ∀ index a, ¬ Shares e index a)
    (splits : ∀ index a, ¬ Splits e index a) (place : List Nat) (b : Expr) : ¬ Opens e place b := by
  intro h
  obtain ⟨_, _, _, -, ⟨split, -⟩ | ⟨share, -⟩⟩ := opens_iff.1 h
  · exact splits _ _ split
  · exact shares _ _ share

theorem Asks.of_shares {e a : Expr} {index : Nat} {name : String} (shares : Shares e index a)
    (h : Asks a name) : Asks e name := by
  rcases h with ⟨place, call, below, reads⟩ | ⟨place, b, within, opens, shows⟩
  · exact .inl ⟨_, call, .argument shares below, reads⟩
  · exact .inr ⟨_, b, within, .shared shares opens, shows⟩

theorem Asks.of_splits {e a : Expr} {index : Nat} {name : String} (splits : Splits e index a)
    (h : Asks a name) : Asks e name := by
  rcases h with ⟨place, shows⟩ | ⟨place, b, within, opens, shows⟩
  · exact .inr ⟨[index], a, place, .argument splits, shows⟩
  · exact .inr ⟨_, b, within, .split splits opens, shows⟩

/-! ### What a walk does -/

/-- What comes of a walk: it fails as the catalog does on a series that is asked for, or it fills the row
    and finishes those of the parts that have one. -/
inductive Outcome (store : Store) (catalog : Catalog) (shown : List Nat → String → Prop)
    (opened : List Nat → Expr → Prop) (asked : String → Prop) (row : ComponentRow) :
    Except Error (ComponentRow × List ComponentRow) → Prop
  | failed {err name} (asks : asked name) (fails : catalog name = .error err) :
      Outcome store catalog shown opened asked row (.error err)
  | done {after places rows} (fills : Fills store catalog shown row after)
      (lists : Lists store catalog opened places rows) :
      Outcome store catalog shown opened asked row (.ok (after, rows))

/-- What comes of a walk through an expression: what is read in its row, and the parts that have one. -/
abbrev OutcomeOf (store : Store) (catalog : Catalog) (e : Expr) : ComponentRow →
    Except Error (ComponentRow × List ComponentRow) → Prop :=
  Outcome store catalog (Shows e) (Opens e) (Asks e)

section Parts

variable {shown shown' : List Nat → String → Prop} {opened opened' : List Nat → Expr → Prop}
  {asked asked' : String → Prop} {row mid after : ComponentRow} {places places' : List (List Nat)}
  {rows rows' : List ComponentRow}

/-- A row that is filled twice shows the last series of the second time, or else that of the first. -/
theorem Fills.append (h : Fills store catalog shown row mid) (h' : Fills store catalog shown' mid after)
    (apart : ∀ place name place' name', shown place name → shown' place' name' → Before place place') :
    Fills store catalog (fun place name => shown place name ∨ shown' place name) row after := by
  cases h' with
  | series here last kind expression =>
      have same : mid.expression = row.expression := by cases h <;> assumption
      refine .series (.inr here) (fun place' name shows => ?_) kind (expression.trans same)
      rcases shows with shows | shows
      · exact .inr (apart _ _ _ _ shows here)
      · exact last _ _ shows
  | kept nothing name kind expression =>
      cases h with
      | kept nothing' name' kind' expression' =>
          exact .kept (fun _ _ shows => shows.elim (nothing' _ _) (nothing _ _)) (name.trans name')
            (kind.trans kind') (expression.trans expression')
      | series here last kind' expression' =>
          refine .series (.inl (name ▸ here)) (fun place' name shows => ?_)
            (by rw [name, kind]; exact kind') (expression.trans expression')
          exact shows.elim (last _ _) (fun shows => absurd shows (nothing _ _))

theorem Lists.append (h : Lists store catalog opened places rows)
    (h' : Lists store catalog opened' places' rows')
    (apart : ∀ place e place' e', opened place e → opened' place' e' → Before place place') :
    Lists store catalog (fun place e => opened place e ∨ opened' place e) (places ++ places')
      (rows ++ rows') := by
  refine ⟨List.pairwise_append.2 ⟨h.ordered, h'.ordered, fun place hplace place' hplace' => ?_⟩,
    fun place => ?_, List.rel_append ?_ ?_⟩
  · obtain ⟨e, opens⟩ := (h.mem_iff place).1 hplace
    obtain ⟨e', opens'⟩ := (h'.mem_iff place').1 hplace'
    exact apart _ _ _ _ opens opens'
  · rw [List.mem_append, h.mem_iff, h'.mem_iff, exists_or]
  · exact h.rows.imp fun place row ⟨e, opens, fills⟩ => ⟨e, .inl opens, fills⟩
  · exact h'.rows.imp fun place row ⟨e, opens, fills⟩ => ⟨e, .inr opens, fills⟩

theorem Lists.nil (nothing : ∀ place e, ¬ opened place e) : Lists store catalog opened [] [] :=
  ⟨.nil, fun place => iff_of_false List.not_mem_nil fun ⟨e, opens⟩ => nothing place e opens, .nil⟩

/-- A row is finished behind those of the parts inside of it. -/
theorem Lists.close {e : Expr} (h : Lists store catalog opened places rows)
    (fills : Fills store catalog (Shows e) { expression := e } row)
    (inner : ∀ place a, opened place a → place ≠ []) :
    Lists store catalog (fun place a => place = [] ∧ a = e ∨ opened place a) (places ++ [[]])
      (rows ++ [row]) := by
  have single : Lists store catalog (fun place a => place = [] ∧ a = e) [[]] [row] := by
    refine ⟨List.pairwise_singleton .., fun place => ?_, .cons ⟨e, ⟨rfl, rfl⟩, fills⟩ .nil⟩
    simp
  simp only [or_comm (a := _ ∧ _)]
  refine h.append single fun place a _ _ opens ⟨last, _⟩ => ?_
  subst last
  cases place with
  | nil => exact absurd rfl (inner _ _ opens)
  | cons index place => exact .inside index place

/-- What holds at places of an argument, at the same places of the application. -/
def Under {β : Type} (index : Nat) (P : List Nat → β → Prop) (place : List Nat) (b : β) : Prop :=
  ∃ rest, place = index :: rest ∧ P rest b

theorem Fills.under (index : Nat) (h : Fills store catalog shown row after) :
    Fills store catalog (Under index shown) row after := by
  cases h with
  | kept nothing name kind expression =>
      exact .kept (fun _ _ ⟨_, _, shows⟩ => nothing _ _ shows) name kind expression
  | series here last kind expression =>
      refine .series ⟨_, rfl, here⟩ ?_ kind expression
      rintro _ name ⟨rest, rfl, shows⟩
      rcases last rest name shows with rfl | before
      · exact .inl rfl
      · exact .inr (.within before)

theorem Lists.under (index : Nat) (h : Lists store catalog opened places rows) :
    Lists store catalog (Under index opened) (places.map (index :: ·)) rows := by
  refine ⟨List.pairwise_map.2 (h.ordered.imp .within), fun place => ?_,
    List.forall₂_map_left_iff.2 (h.rows.imp fun place row ⟨e, opens, fills⟩ =>
      ⟨e, ⟨place, rfl, opens⟩, fills⟩)⟩
  rw [List.mem_map]
  constructor
  · rintro ⟨rest, hrest, rfl⟩
    obtain ⟨e, opens⟩ := (h.mem_iff rest).1 hrest
    exact ⟨e, rest, rfl, opens⟩
  · rintro ⟨e, rest, rfl, opens⟩
    exact ⟨rest, (h.mem_iff rest).2 ⟨e, opens⟩, rfl⟩

theorem Under.before {β γ : Type} {i j : Nat} (less : i < j) {P : List Nat → β → Prop}
    {Q : List Nat → γ → Prop} {place place' : List Nat} {b : β} {c : γ} (h : Under i P place b)
    (h' : Under j Q place' c) : Before place place' := by
  obtain ⟨rest, rfl, -⟩ := h
  obtain ⟨rest', rfl, -⟩ := h'
  exact .left less rest rest'

theorem Outcome.under (index : Nat) (asks : ∀ name, asked name → asked' name)
    {result : Except Error (ComponentRow × List ComponentRow)}
    (h : Outcome store catalog shown opened asked row result) :
    Outcome store catalog (Under index shown) (Under index opened) asked' row result := by
  cases h with
  | failed asks' fails => exact .failed (asks _ asks') fails
  | done fills lists => exact .done (fills.under index) (lists.under index)

theorem Outcome.congr (shows : ∀ place name, shown place name ↔ shown' place name)
    (opens : ∀ place e, opened place e ↔ opened' place e)
    {result : Except Error (ComponentRow × List ComponentRow)}
    (h : Outcome store catalog shown opened asked row result) :
    Outcome store catalog shown' opened' asked row result := by
  have same : shown = shown' := by
    funext place name
    exact propext (shows place name)
  have same' : opened = opened' := by
    funext place e
    exact propext (opens place e)
  rwa [same, same'] at h

/-- A coefficient of the row is no concern of what is shown in it. -/
theorem Outcome.coefficient {text : String} {result : Except Error (ComponentRow × List ComponentRow)}
    (h : Outcome store catalog shown opened asked { row with coefficient := text } result) :
    Outcome store catalog shown opened asked row result := by
  cases h with
  | failed asks fails => exact .failed asks fails
  | done fills lists =>
      cases fills with
      | kept nothing name kind expression => exact .done (.kept nothing name kind expression) lists
      | series here last kind expression => exact .done (.series here last kind expression) lists

/-- The steps that an operator takes from argument to argument. -/
theorem outcome_runSteps {args : List Expr} {walks : List Walk} {step : Nat → EditorStep}
    {shown : Nat → List Nat → String → Prop} {opened : Nat → List Nat → Expr → Prop}
    {indices : List Nat} (ascending : indices.Pairwise (· < ·))
    (each : ∀ i ∈ indices, ∀ row, Outcome store catalog (Under i (shown i)) (Under i (opened i)) asked row
      ((runStep store args walks (step i) row).run catalog)) (row : ComponentRow) :
    Outcome store catalog (fun place name => ∃ i ∈ indices, Under i (shown i) place name)
      (fun place e => ∃ i ∈ indices, Under i (opened i) place e) asked row
      ((runSteps store args walks (indices.map step) row).run catalog) := by
  induction indices generalizing row with
  | nil => exact .done (.kept (by simp) rfl rfl rfl) (.nil (by simp))
  | cons i indices ih =>
      obtain ⟨first, ascending⟩ := List.pairwise_cons.1 ascending
      -- The other steps start from the row that the first one leaves, so the induction is for all rows.
      have here := each i List.mem_cons_self row
      have rest := ih ascending fun j hj => each j (List.mem_cons_of_mem _ hj)
      simp only [List.mem_cons, exists_eq_or_imp]
      show Outcome _ _ _ _ _ _ (Query.run catalog (Query.bind _ _))
      rw [Query.run_bind]
      generalize (runStep store args walks (step i) row).run catalog = result at here
      cases here with
      | failed asks fails => exact .failed asks fails
      | @done mid _ finished fills lists =>
          have rest := rest mid
          show Outcome _ _ _ _ _ _ (Query.run catalog (Query.bind _ _))
          rw [Query.run_bind]
          generalize (runSteps store args walks (indices.map step) mid).run catalog = result at rest
          cases rest with
          | failed asks fails => exact .failed asks fails
          | done fills' lists' =>
              refine .done (fills.append fills' ?_) (lists.append lists' ?_)
              · rintro _ _ _ _ under ⟨j, hj, under'⟩
                exact under.before (first j hj) under'
              · rintro _ _ _ _ under ⟨j, hj, under'⟩
                exact under.before (first j hj) under'

end Parts

/-! ### The built-in operators -/

/-- What the built-in operators add to the table. -/
theorem editor_cases (op : String) :
    (op = "series" ∧ (Registry.builtin.get? op).bind Operator.editor = some Operator.seriesEditor) ∨
    ((op = "+" ∨ op = "*") ∧ ∃ symbol,
      (Registry.builtin.get? op).bind Operator.editor = some (Operator.coefficientEditor symbol)) ∨
    (op ∈ combinators ∧
      (Registry.builtin.get? op).bind Operator.editor = some Operator.combinatorEditor) ∨
    (op ≠ "series" ∧ op ≠ "+" ∧ op ≠ "*" ∧ op ∉ combinators ∧
      (Registry.builtin.get? op).bind Operator.editor = none) := by
  have registered : ∀ o ∈ Operator.builtins, o.name = op →
      (Registry.builtin.get? op).bind Operator.editor = o.editor := by
    rintro o known rfl
    rw [Registry.builtin_get?_of_mem known]
    rfl
  by_cases named : ∃ o ∈ Operator.builtins, o.name = op
  · obtain ⟨o, known, name⟩ := named
    rw [registered o known name]
    simp only [Operator.builtins, List.mem_cons, List.not_mem_nil, or_false] at known
    subst name
    rcases known with rfl | rfl | rfl | rfl | rfl | rfl | rfl | rfl | rfl | rfl | rfl | rfl | rfl | rfl |
      rfl | rfl | rfl | rfl | rfl | rfl | rfl | rfl | rfl | rfl | rfl | rfl | rfl | rfl
    -- The operators are known, so each falls under one of the four cases by evaluation.
    all_goals first
      | exact .inl ⟨rfl, rfl⟩
      | exact .inr (.inl ⟨by decide, _, rfl⟩)
      | exact .inr (.inr (.inl ⟨by decide, rfl⟩))
      | exact .inr (.inr (.inr ⟨by decide, by decide, by decide, by decide, rfl⟩))
  · have unknown : Registry.builtin.get? op = none := by
      refine Option.eq_none_iff_forall_ne_some.2 fun o found => named ⟨o, ?_⟩
      exact Registry.builtin_get? found
    have all : ∀ o ∈ Operator.builtins, op ≠ o.name := fun o known same => named ⟨o, known, same.symm⟩
    refine .inr (.inr (.inr ⟨all Operator.series (by simp [Operator.builtins]),
      all Operator.plus (by simp [Operator.builtins]), all Operator.times (by simp [Operator.builtins]),
      fun combinator => ?_, by rw [unknown]; rfl⟩))
    have covered : ∀ name ∈ combinators, name ∈ Operator.builtins.map Operator.name := by decide
    obtain ⟨o, known, same⟩ := List.mem_map.1 (covered op combinator)
    exact named ⟨o, known, same⟩

theorem run_lookup (store : Store) (catalog : Catalog) (name : String) :
    (∃ err, catalog name = .error err ∧ (RowKind.lookup store name).run catalog = .error err) ∨
      ∃ kind, (RowKind.lookup store name).run catalog = .ok kind := by
  show (∃ err, _ ∧ Query.run catalog (Query.bind (Query.formula name) _) = _) ∨
    ∃ kind, Query.run catalog (Query.bind (Query.formula name) _) = _
  rw [Query.run_bind, Query.run_formula]
  cases catalog name with
  | error err => exact .inl ⟨err, rfl, rfl⟩
  | ok tree => cases tree <;> exact .inr ⟨_, rfl⟩

theorem walks_eq_map (r : Registry) (store : Store) (es : List Expr) :
    walks r store es = es.map (walk r store) := by
  induction es with
  | nil => rfl
  | cons e es ih => rw [walks, List.map_cons, ih]

theorem run_coefficient (args : List Expr) (walks : List Walk) (text : String) (steps : List EditorStep)
    (row : ComponentRow) : (runSteps store args walks (.coefficient text :: steps) row).run catalog =
      (runSteps store args walks steps { row with coefficient := text }).run catalog := by
  show Query.run catalog (Query.bind (runSteps store args walks steps _) _) = _
  rw [Query.run_bind]
  cases (runSteps store args walks steps { row with coefficient := text }).run catalog <;> rfl

/-- What holds of an argument, wherever it stands. -/
def OfArgument {β : Type} (args : List Expr) (P : Expr → List Nat → β → Prop) (index : Nat)
    (place : List Nat) (b : β) : Prop :=
  ∃ e, args[index]? = some e ∧ P e place b

section Call

variable {r : Registry} {op : String} {args : List Expr} {kwargs : List (String × Expr)} {e : Expr}
  {index : Nat}

/-- What is read in the row of an application that is no series is read in that of an argument. -/
theorem shows_argument_iff (other : op ≠ "series") {place : List Nat} {name : String} :
    Shows (.call ⟨op, args, kwargs⟩) place name ↔
      ∃ index e, Shares (.call ⟨op, args, kwargs⟩) index e ∧ Under index (Shows e) place name := by
  have unnamed : Application.seriesName? (⟨op, args, kwargs⟩ : Call) ≠ some name := by
    simp [Application.seriesName?, other]
  rw [shows_call_iff]
  constructor
  · rintro (⟨-, reads⟩ | ⟨index, e, rest, rfl, shares, shows⟩)
    · exact absurd reads unnamed
    · exact ⟨index, e, shares, rest, rfl, shows⟩
  · rintro ⟨index, e, shares, rest, rfl, shows⟩
    exact .inr ⟨index, e, rest, rfl, shares, shows⟩

theorem splits_iff (combinator : op ∈ combinators) :
    Splits (.call ⟨op, args, kwargs⟩) index e ↔ args[index]? = some e := by
  refine ⟨?_, fun argument => ⟨combinator, argument⟩⟩
  rintro ⟨-, argument⟩
  exact argument

theorem shares_iff (scalar : op = "+" ∨ op = "*") {k : Float}
    (number : args.head?.bind Expr.number? = some k) :
    Shares (.call ⟨op, args, kwargs⟩) index e ↔
      index ∈ List.range' 1 (args.length - 1) ∧ args[index]? = some e := by
  rw [List.mem_range'_1]
  constructor
  · rintro ⟨-, -, behind, argument⟩
    have inside := (List.getElem?_eq_some_iff.1 argument).1
    exact ⟨by omega, argument⟩
  · rintro ⟨hi, argument⟩
    exact ⟨scalar, ⟨k, number⟩, by omega, argument⟩

/-- An application whose arguments are neither in its row nor in rows of their own. -/
theorem outcome_stop (other : op ≠ "series")
    (shares : ∀ index e, ¬ Shares (.call ⟨op, args, kwargs⟩) index e)
    (splits : ∀ index e, ¬ Splits (.call ⟨op, args, kwargs⟩) index e) (row : ComponentRow) :
    OutcomeOf store catalog (.call ⟨op, args, kwargs⟩) row ((Walk.skip row).run catalog) := by
  refine .done (.kept (fun place name shows => ?_) rfl rfl rfl) (.nil (not_opens shares splits))
  obtain ⟨_, _, share, -⟩ := (shows_argument_iff other).1 shows
  exact shares _ _ share

/-- An application that reads a series has nothing below it in the table. -/
theorem outcome_series (series : op = "series") (row : ComponentRow) (walks : List Walk) :
    OutcomeOf store catalog (.call ⟨op, args, kwargs⟩) row
      ((runSteps store args walks (Operator.seriesEditor ⟨op, args, kwargs⟩) row).run catalog) := by
  subst series
  have shares : ∀ index e, ¬ Shares (.call ⟨"series", args, kwargs⟩) index e := by
    rintro _ _ ⟨scalar⟩
    simp at scalar
  have splits : ∀ index e, ¬ Splits (.call ⟨"series", args, kwargs⟩) index e := by
    rintro _ _ ⟨combinator⟩
    exact absurd combinator (by decide)
  have shows : ∀ place name, Shows (.call ⟨"series", args, kwargs⟩) place name →
      place = [] ∧ Application.seriesName? ⟨"series", args, kwargs⟩ = some name := by
    intro place name h
    rcases shows_call_iff.1 h with here | ⟨_, _, _, -, share, -⟩
    · exact here
    · exact absurd share (shares _ _)
  have opens : Lists store catalog (Opens (.call ⟨"series", args, kwargs⟩)) [] [] :=
    .nil (not_opens shares splits)
  unfold Operator.seriesEditor
  cases named : Application.seriesName? ⟨"series", args, kwargs⟩ with
  | none =>
      refine .done (.kept (fun place name h => ?_) rfl rfl rfl) opens
      rw [(shows place name h).2] at named
      cases named
  | some name =>
      have here : Shows (.call ⟨"series", args, kwargs⟩) [] name := shows_call_iff.2 (.inl ⟨rfl, named⟩)
      have last : ∀ place name, Shows (.call ⟨"series", args, kwargs⟩) place name →
          place = [] ∨ Before place [] := fun place name h => .inl (shows place name h).1
      show Outcome _ _ _ _ _ _ (Query.run catalog (Query.bind (Query.bind (RowKind.lookup store name) _) _))
      rw [Query.run_bind, Query.run_bind]
      rcases run_lookup store catalog name with ⟨err, fails, run⟩ | ⟨kind, run⟩
      · rw [run]
        exact .failed (.inl ⟨[], here⟩) fails
      · rw [run]
        exact .done (.series here last run rfl) opens

/-- The walk through an argument in the row of the application. -/
theorem outcome_shared (argument : args[index]? = some e) (shares : Shares (.call ⟨op, args, kwargs⟩) index e)
    {row : ComponentRow} (below : OutcomeOf store catalog e row ((walk r store e row).run catalog)) :
    Outcome store catalog (Under index (OfArgument args Shows index))
      (Under index (OfArgument args Opens index)) (Asks (.call ⟨op, args, kwargs⟩)) row
      ((runStep store args (walks r store args) (.walk index) row).run catalog) := by
  have walked : runStep store args (walks r store args) (.walk index) = walk r store e := by
    show (walks r store args).getD index Walk.skip = _
    rw [walks_eq_map, List.getD_eq_getElem?_getD, List.getElem?_map, argument]
    rfl
  rw [walked]
  refine Outcome.under index (fun _ => Asks.of_shares shares) ?_
  refine below.congr (fun place name => ?_) fun place a => ?_
  · simp [OfArgument, argument]
  · simp [OfArgument, argument]

/-- The walk through an argument in a row of its own. -/
theorem outcome_split (argument : args[index]? = some e) (splits : Splits (.call ⟨op, args, kwargs⟩) index e)
    (below : OutcomeOf store catalog e { expression := e }
      ((walk r store e { expression := e }).run catalog)) (row : ComponentRow) :
    Outcome store catalog (Under index (fun _ _ => False))
      (Under index (OfArgument args (fun e place a => place = [] ∧ a = e ∨ Opens e place a) index))
      (Asks (.call ⟨op, args, kwargs⟩)) row
      ((runStep store args (walks r store args) (.row index) row).run catalog) := by
  have walked : runStep store args (walks r store args) (.row index) row =
      (walk r store e { expression := e }).bind (fun p => .done (row, p.2 ++ [p.1])) := by
    simp only [runStep, walks_eq_map, List.getElem?_map, argument]
    rfl
  refine Outcome.under index (fun _ => Asks.of_splits splits) ?_
  rw [walked, Query.run_bind]
  generalize (walk r store e { expression := e }).run catalog = result at below
  cases below with
  | failed asks fails => exact .failed asks fails
  | done fills lists =>
      refine Outcome.congr (fun _ _ => .rfl) (fun place a => ?_)
        (.done (.kept (fun _ _ => id) rfl rfl rfl) (lists.close fills fun _ _ => Opens.ne_nil))
      simp [OfArgument, argument]

/-- Behind a number in front, a sum or a product goes on in the same row. -/
theorem outcome_scaled (scalar : op = "+" ∨ op = "*") {k : Float}
    (number : args.head?.bind Expr.number? = some k) (text : String)
    (below : ∀ e ∈ args, ∀ row, OutcomeOf store catalog e row ((walk r store e row).run catalog))
    (row : ComponentRow) :
    OutcomeOf store catalog (.call ⟨op, args, kwargs⟩) row ((runSteps store args (walks r store args)
      (.coefficient text :: (List.range' 1 (args.length - 1)).map .walk) row).run catalog) := by
  have other : op ≠ "series" := by
    rintro rfl
    simp at scalar
  have splits : ∀ index e, ¬ Splits (.call ⟨op, args, kwargs⟩) index e := by
    rintro _ _ ⟨combinator⟩
    rcases scalar with rfl | rfl <;> exact absurd combinator (by decide)
  have shares {i : Nat} {e : Expr} : Shares (.call ⟨op, args, kwargs⟩) i e ↔
      i ∈ List.range' 1 (args.length - 1) ∧ args[i]? = some e := shares_iff scalar number
  have each : ∀ i ∈ List.range' 1 (args.length - 1), ∀ row, Outcome store catalog
      (Under i (OfArgument args Shows i)) (Under i (OfArgument args Opens i))
      (Asks (.call ⟨op, args, kwargs⟩)) row
      ((runStep store args (walks r store args) (.walk i) row).run catalog) := by
    intro i hi row
    have inside : i < args.length := by
      have := List.mem_range'_1.1 hi
      omega
    have argument : args[i]? = some args[i] := List.getElem?_eq_getElem inside
    exact outcome_shared argument (shares.2 ⟨hi, argument⟩) (below _ (List.getElem_mem inside) row)
  rw [run_coefficient]
  refine (outcome_runSteps (List.pairwise_lt_range' ..) each _).coefficient.congr
    (fun place name => ?_) fun place a => ?_
  · rw [shows_argument_iff other]
    constructor
    · rintro ⟨i, hi, rest, rfl, e, argument, shows⟩
      exact ⟨i, e, shares.2 ⟨hi, argument⟩, rest, rfl, shows⟩
    · rintro ⟨i, e, share, rest, rfl, shows⟩
      exact ⟨i, (shares.1 share).1, rest, rfl, e, (shares.1 share).2, shows⟩
  · rw [opens_iff]
    constructor
    · rintro ⟨i, hi, rest, rfl, e, argument, opens⟩
      exact ⟨i, rest, e, rfl, .inr ⟨shares.2 ⟨hi, argument⟩, opens⟩⟩
    · rintro ⟨i, rest, e, rfl, ⟨split, -⟩ | ⟨share, opens⟩⟩
      · exact absurd split (splits _ _)
      · exact ⟨i, (shares.1 share).1, rest, rfl, e, (shares.1 share).2, opens⟩

theorem outcome_coefficient (symbol : String) (scalar : op = "+" ∨ op = "*")
    (below : ∀ e ∈ args, ∀ row, OutcomeOf store catalog e row ((walk r store e row).run catalog))
    (row : ComponentRow) :
    OutcomeOf store catalog (.call ⟨op, args, kwargs⟩) row ((runSteps store args (walks r store args)
      (Operator.coefficientEditor symbol ⟨op, args, kwargs⟩) row).run catalog) := by
  unfold Operator.coefficientEditor
  dsimp only
  cases number : args.head?.bind Expr.number? with
  | some k => exact outcome_scaled scalar number _ below row
  | none =>
      refine outcome_stop ?_ ?_ ?_ row
      · rintro rfl
        simp at scalar
      · rintro _ _ ⟨-, ⟨k, number'⟩, -, -⟩
        rw [number] at number'
        cases number'
      · rintro _ _ ⟨combinator⟩
        rcases scalar with rfl | rfl <;> exact absurd combinator (by decide)

/-- Every argument of a combinator has its row. -/
theorem outcome_combinator (combinator : op ∈ combinators)
    (below : ∀ e ∈ args, ∀ row, OutcomeOf store catalog e row ((walk r store e row).run catalog))
    (row : ComponentRow) :
    OutcomeOf store catalog (.call ⟨op, args, kwargs⟩) row ((runSteps store args (walks r store args)
      (Operator.combinatorEditor ⟨op, args, kwargs⟩) row).run catalog) := by
  have other : op ≠ "series" := by
    rintro rfl
    exact absurd combinator (by decide)
  have shares : ∀ index e, ¬ Shares (.call ⟨op, args, kwargs⟩) index e := by
    rintro _ _ ⟨rfl | rfl⟩ <;> exact absurd combinator (by decide)
  have each : ∀ i ∈ List.range args.length, ∀ row, Outcome store catalog
      (Under i (fun _ _ => False))
      (Under i (OfArgument args (fun e place a => place = [] ∧ a = e ∨ Opens e place a) i))
      (Asks (.call ⟨op, args, kwargs⟩)) row
      ((runStep store args (walks r store args) (.row i) row).run catalog) := by
    intro i hi row
    have inside := List.mem_range.1 hi
    have argument : args[i]? = some args[i] := List.getElem?_eq_getElem inside
    exact outcome_split argument ((splits_iff combinator).2 argument)
      (below _ (List.getElem_mem inside) _) row
  refine (outcome_runSteps List.pairwise_lt_range each row).congr (fun place name => ?_) fun place a => ?_
  · refine iff_of_false ?_ fun shows => ?_
    · rintro ⟨_, _, _, _, none⟩
      exact none
    · obtain ⟨_, _, share, -⟩ := (shows_argument_iff other).1 shows
      exact shares _ _ share
  · rw [opens_iff]
    constructor
    · rintro ⟨i, hi, rest, rfl, e, argument, opens⟩
      exact ⟨i, rest, e, rfl, .inl ⟨(splits_iff combinator).2 argument, opens⟩⟩
    · rintro ⟨i, rest, e, rfl, ⟨split, opens⟩ | ⟨share, -⟩⟩
      · have argument := (splits_iff combinator).1 split
        have inside := (List.getElem?_eq_some_iff.1 argument).1
        exact ⟨i, List.mem_range.2 inside, rest, rfl, e, argument, opens⟩
      · exact absurd share (shares _ _)

/-- A step of the walk: what comes of an application, given what comes of its arguments. -/
theorem outcome_call
    (below : ∀ e ∈ args, ∀ row, OutcomeOf store catalog e row ((walk .builtin store e row).run catalog))
    (row : ComponentRow) : OutcomeOf store catalog (.call ⟨op, args, kwargs⟩) row
      ((walk .builtin store (.call ⟨op, args, kwargs⟩) row).run catalog) := by
  rw [walk]
  rcases editor_cases op with ⟨series, editor⟩ | ⟨scalar, symbol, editor⟩ | ⟨combinator, editor⟩ |
    ⟨series, plus, times, combinator, editor⟩ <;> rw [editor]
  · exact outcome_series series row _
  · exact outcome_coefficient symbol scalar below row
  · exact outcome_combinator combinator below row
  · refine outcome_stop series ?_ ?_ row
    · rintro _ _ ⟨scalar⟩
      exact scalar.elim plus times
    · rintro _ _ ⟨inside⟩
      exact combinator inside

end Call

theorem outcome_leaf {e : Expr} (leaf : ∀ call, e ≠ .call call) (row : ComponentRow) :
    OutcomeOf store catalog e row ((Walk.skip row).run catalog) := by
  have shares : ∀ index a, ¬ Shares e index a := by
    rintro _ _ ⟨⟩
    exact leaf _ rfl
  have splits : ∀ index a, ¬ Splits e index a := by
    rintro _ _ ⟨⟩
    exact leaf _ rfl
  refine .done (.kept ?_ rfl rfl rfl) (.nil (not_opens shares splits))
  rintro place name ⟨call, inRow, -⟩
  cases inRow with
  | self => exact leaf _ rfl
  | argument share => exact shares _ _ share

mutual

/-- What comes of the walk through an expression. -/
theorem outcome_walk (store : Store) (catalog : Catalog) : (e : Expr) → (row : ComponentRow) →
    OutcomeOf store catalog e row ((walk .builtin store e row).run catalog)
  | .literal _, row => outcome_leaf (by simp) row
  | .symbol _, row => outcome_leaf (by simp) row
  | .call ⟨_, args, _⟩, row => outcome_call (outcome_walks store catalog args) row

theorem outcome_walks (store : Store) (catalog : Catalog) : (es : List Expr) → ∀ e ∈ es, ∀ row,
    OutcomeOf store catalog e row ((walk .builtin store e row).run catalog)
  | [] => nofun
  | e :: rest => List.forall_mem_cons.2
      ⟨outcome_walk store catalog e, outcome_walks store catalog rest⟩

end

/-- The table of a formula fails only as the catalog does on a series that it asks for. Otherwise the last
    row stands for the formula, under its name and kind unless a series is read in its row, and in front
    of it there is one row for every part that has one, those inside of a part in front of the part. -/
theorem table_rows (store : Store) (catalog : Catalog) (name : String) (e : Expr) :
    (∃ err asked, Asks e asked ∧ catalog asked = .error err ∧
      (table .builtin store name e).run catalog = .error err) ∨
    ∃ places below last, (table .builtin store name e).run catalog = .ok (below ++ [last]) ∧
      Fills store catalog (Shows e) { name, kind := .ofFormula e, expression := e } last ∧
      places.Nodup ∧ Lists store catalog (Opens e) places below := by
  have outcome := outcome_walk store catalog e { name, kind := .ofFormula e, expression := e }
  have run : (table .builtin store name e).run catalog =
      ((walk .builtin store e { name, kind := .ofFormula e, expression := e }).run catalog).map
        (fun p => p.2 ++ [p.1]) := by
    show Query.run catalog (Query.bind _ _) = _
    rw [Query.run_bind]
    rfl
  rw [run]
  generalize (walk .builtin store e { name, kind := .ofFormula e, expression := e }).run catalog =
    result at outcome
  cases outcome with
  | failed asks fails => exact .inl ⟨_, _, asks, fails, rfl⟩
  | done fills lists => exact .inr ⟨_, _, _, rfl, fills, lists.ordered.imp Before.ne, lists⟩

/-- A formula that scales a series has no row under its own name: the one row is that of the series. -/
theorem not_under_own_name :
    let e : Expr := .call ⟨"*", [.literal (.int 2), .series "a"], []⟩
    ∃ last, (table .builtin ⟨[("a", {})]⟩ "f" e).run .empty = .ok [last] ∧ last.name ≠ "f" ∧
      last.kind ≠ .ofFormula e := by
  intro e
  exact ⟨{ name := "a", kind := .primary, coefficient := "x 2.0", expression := e },
    toOption_eq_some_iff.1 (by decide +kernel), by decide, by decide⟩

end ComponentRow

end SeriesLang
