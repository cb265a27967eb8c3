import SeriesLang.Alias
import SeriesLang.Proofs.Expr.RoundTrip
import SeriesLang.Proofs.Query.Shape

/-! # Formulas of aliases

A table of aliases is told again by formulas: there is one for each alias, its text is read, it fits the
operators, and its components are those of the rows of the alias, each once. Nothing is asked of the names
in a row. What the formulas are to say is stated without the functions that make them: by relations
between rows and expressions, and by the two orders that the components may come in.
-/

namespace SeriesLang

namespace Alias

variable {α : Type} {name : α → String} {op : String}

/-- The texts of formulas. -/
def texts (formulas : List (String × Expr)) : List (String × String) :=
  formulas.map (fun (name, e) => (name, e.canonical))

/-- Keys by where they are first seen, each once. -/
structure FirstSeen (keys seen : List String) : Prop where
  mem_iff : ∀ key, key ∈ keys ↔ key ∈ seen
  order : keys.Pairwise (fun a b => seen.idxOf a < seen.idxOf b)

/-- One component stands for itself; two or more stand under an operator. -/
inductive Joins (op : String) : List Expr → Expr → Prop
  | single (e : Expr) : Joins op [e] e
  | several {components : List Expr} (two : 2 ≤ components.length) :
      Joins op components (.call ⟨op, components, []⟩)

/-- The expression reads a series with keywords, and scales it unless the coefficient is one. -/
inductive Weighs (series : String) (kwargs : List (String × Expr)) (coefficient : Float) : Expr → Prop
  | plain (one : (coefficient == 1) = true) :
      Weighs series kwargs coefficient (.call ⟨"series", [.literal (.str series)], kwargs⟩)
  | scaled (other : (coefficient == 1) = false) :
      Weighs series kwargs coefficient (.call ⟨"*", [.literal (.float coefficient),
        .call ⟨"series", [.literal (.str series)], kwargs⟩], []⟩)

/-- The texts tell the rows: one text for each name, in the order in which the names are first seen. It is
    read as a tree that fits the operators and joins what the rows of the name mean, row by row, in the
    order that they are to be in. -/
structure Tells (name : α → String) (op : String) (Ordered : List α → List α → Prop)
    (Means : α → Expr → Prop) (rows : List α) (texts : List (String × String)) : Prop where
  names : FirstSeen (texts.map Prod.fst) (rows.map name)
  trees : ∀ p ∈ texts, ∃ ordered components tree,
    Ordered (rows.filter (fun row => name row = p.1)) ordered ∧
    List.Forall₂ Means ordered components ∧ Joins op components tree ∧
    Expr.parse p.2 = .ok tree ∧ Registry.builtin.checkTree tree = .ok ()

end Alias

/-- The expression is the component of a row of a sum. -/
inductive ArithmeticRow.Means (row : ArithmeticRow) : Expr → Prop
  | unfilled {e : Expr} (empty : ∀ fill, row.fill = some fill → fill = "")
      (weighs : Alias.Weighs row.series [] row.coefficient e) : Means row e
  | filled {e : Expr} {fill : String} (given : row.fill = some fill) (nonempty : fill ≠ "")
      (weighs : Alias.Weighs row.series [("fill", .literal (.str fill))] row.coefficient e) : Means row e

/-- The expression is the component of a row of a priority list. -/
inductive PriorityRow.Means (row : PriorityRow) : Expr → Prop
  | unpruned {e : Expr} (zero : ∀ n, row.prune = some n → n = 0)
      (weighs : Alias.Weighs row.series [] row.coefficient e) : Means row e
  | pruned {e : Expr} {n : Int} (given : row.prune = some n) (nonzero : n ≠ 0)
      (weighs : Alias.Weighs row.series [("prune", .literal (.int n))] row.coefficient e) : Means row e

/-- The rows by ascending priority, those of each priority in the order that they had. -/
structure PriorityRow.Ranked (rows ranked : List PriorityRow) : Prop where
  perm : ranked.Perm rows
  ascending : ranked.Pairwise (fun a b => a.priority ≤ b.priority)
  stable : ∀ n, ranked.filter (fun row => row.priority = n) = rows.filter (fun row => row.priority = n)

namespace Alias

variable {α : Type} {name : α → String} {op : String}

/-! ### Names in the order in which they are first seen -/

/-- Of two keys that are kept, the one that is seen first among those kept is seen first. -/
theorem idxOf_lt_of_filter {keeps : String → Bool} {x y : String} (hx : keeps x = true)
    (hy : keeps y = true) (seen : List String)
    (h : (seen.filter keeps).idxOf x < (seen.filter keeps).idxOf y) : seen.idxOf x < seen.idxOf y := by
  induction seen with
  | nil => exact h
  | cons b seen ih =>
      cases kept : keeps b with
      | false =>
          rw [List.filter_cons_of_neg (by simp [kept])] at h
          rw [List.idxOf_cons_ne _ (fun same => by simp [same, hx] at kept),
            List.idxOf_cons_ne _ (fun same => by simp [same, hy] at kept)]
          exact Nat.succ_lt_succ (ih h)
      | true =>
          rw [List.filter_cons_of_pos kept] at h
          by_cases hyb : b = y
          · rw [hyb, List.idxOf_cons_self] at h
            exact absurd h (Nat.not_lt_zero _)
          · rw [List.idxOf_cons_ne _ hyb] at h ⊢
            by_cases hxb : b = x
            · rw [hxb, List.idxOf_cons_self]
              exact Nat.succ_pos _
            · rw [List.idxOf_cons_ne _ hxb] at h ⊢
              exact Nat.succ_lt_succ (ih (Nat.lt_of_succ_lt_succ h))

theorem firstSeen_eraseDups (seen : List String) : FirstSeen seen.eraseDups seen := by
  refine ⟨fun key => List.mem_eraseDups, ?_⟩
  -- The keys behind the first are those of a list with the first one left out, which is shorter.
  induction h : seen.length using Nat.strong_induction_on generalizing seen with
  | _ n ih =>
      cases seen with
      | nil => exact .nil
      | cons a seen =>
          subst h
          have shorter : (seen.filter (fun b => !b == a)).length < (a :: seen).length :=
            Nat.lt_succ_of_le (List.length_filter_le _ _)
          rw [List.eraseDups_cons, List.pairwise_cons]
          have kept : ∀ key ∈ (seen.filter (fun b => !b == a)).eraseDups, (!key == a) = true :=
            fun key hkey => (List.mem_filter.1 (List.mem_eraseDups.1 hkey)).2
          have ne : ∀ key ∈ (seen.filter (fun b => !b == a)).eraseDups, a ≠ key := by
            intro key hkey same
            simpa [same] using kept key hkey
          refine ⟨fun key hkey => ?_, (ih _ shorter _ rfl).imp_of_mem fun hx hy lt => ?_⟩
          · rw [List.idxOf_cons_self, List.idxOf_cons_ne _ (ne key hkey)]
            exact Nat.succ_pos _
          · rw [List.idxOf_cons_ne _ (ne _ hx), List.idxOf_cons_ne _ (ne _ hy)]
            exact Nat.succ_lt_succ (idxOf_lt_of_filter (kept _ hx) (kept _ hy) seen lt)

/-! ### Components -/

theorem weighs_scaled (series : String) (kwargs : List (String × Expr)) (coefficient : Float) :
    Weighs series kwargs coefficient
      (scaled coefficient (.call ⟨"series", [.literal (.str series)], kwargs⟩)) := by
  unfold scaled
  split
  · next one => exact .plain one
  · next other => exact .scaled (by simpa using other)

/-- The expression is read from its text also below an application, and fits the operators. -/
structure Sound (e : Expr) : Prop where
  readable : ∀ room, Expr.Readable (room + 2) e
  accepted : Registry.builtin.Accepts e

theorem isName_of_plain {op : String} (nonempty : op.toList ≠ [])
    (plain : op.toList.all (fun c => !Token.isDelimiter c) = true)
    (read : (Expr.ofWord 0 op).toOption = some (.symbol op)) : Expr.IsName op :=
  ⟨Expr.isWord_of_all nonempty plain, toOption_eq_some_iff.1 read⟩

theorem takes_series (name : Expr) {kwargs : List (String × Expr)}
    (keys : ∀ p ∈ kwargs, p.1 = "fill" ∨ p.1 = "prune") :
    Registry.builtin.Takes ⟨"series", [name], kwargs⟩ := by
  refine ⟨Operator.series, .root, Registry.builtin_get?_series, ?_⟩
  have known : (kwargs.map Prod.fst).find?
      (fun name => !Operator.series.signature.keywords.any (fun p => p.name == name)) = none := by
    refine List.find?_eq_none.2 fun key hkey => ?_
    obtain ⟨p, hp, rfl⟩ := List.mem_map.1 hkey
    rcases keys p hp with h | h <;> rw [h] <;> decide
  unfold Signature.checkCall Signature.checkShape
  simp only [known]
  rfl

theorem takes_times (a b : Expr) : Registry.builtin.Takes ⟨"*", [a, b], []⟩ :=
  ⟨Operator.times, .root, Registry.builtin_get?_of_mem (o := Operator.times) (by simp [Operator.builtins]),
    rfl⟩

/-- An operator that takes any number of arguments can be applied to two or more. -/
theorem takes_several {o : Operator} (known : o ∈ Operator.builtins) (rest : o.signature.rest.isSome = true)
    (required : o.signature.requiredCount ≤ 2) (args : List Expr) (two : 2 ≤ args.length) :
    Registry.builtin.Takes ⟨o.name, args, []⟩ := by
  refine ⟨o, .root, Registry.builtin_get?_of_mem known, ?_⟩
  have enough : ¬ args.length < o.signature.requiredCount := by omega
  have any : o.signature.rest.isNone = false := by simpa using rest
  unfold Signature.checkCall Signature.checkShape
  simp [enough, any]

theorem accepts_literal (l : Literal) : Registry.builtin.Accepts (.literal l) :=
  fun _ hcall => absurd hcall List.not_mem_nil

/-- A series with at most one keyword is read below any number of applications, up to the last. -/
theorem sound_series (series : String) {kwargs : List (String × Expr)} (one : kwargs.length ≤ 1)
    (keys : ∀ p ∈ kwargs, p.1 = "fill" ∨ p.1 = "prune")
    (values : ∀ p ∈ kwargs, ∃ l, p.2 = .literal l ∧ Literal.Readable l) :
    (∀ room, Expr.Readable (room + 1) (.call ⟨"series", [.literal (.str series)], kwargs⟩)) ∧
      Registry.builtin.Accepts (.call ⟨"series", [.literal (.str series)], kwargs⟩) := by
  constructor
  · intro room
    refine .call (isName_of_plain (by decide) (by decide) (by decide)) ?_ (fun p hp => ?_) (fun p hp => ?_) ?_
    · exact List.forall_mem_singleton.2 (.literal trivial)
    · rcases keys p hp with h | h <;> rw [h] <;> exact Expr.isWord_of_all (by decide) (by decide)
    · obtain ⟨l, value, readable⟩ := values p hp
      rw [value]
      exact .literal readable
    · match kwargs, one with
      | [], _ => exact .nil
      | [p], _ => exact List.pairwise_singleton ..
  · refine Registry.accepts_call (takes_series _ keys) fun e he => ?_
    rcases List.mem_append.1 he with he | he
    · rw [List.mem_singleton.1 he]
      exact accepts_literal _
    · obtain ⟨p, hp, rfl⟩ := List.mem_map.1 he
      obtain ⟨l, value, -⟩ := values p hp
      rw [value]
      exact accepts_literal l

theorem Weighs.sound {series : String} {kwargs : List (String × Expr)} {coefficient : Float} {e : Expr}
    (h : Weighs series kwargs coefficient e) (finite : coefficient.isFinite = true)
    (one : kwargs.length ≤ 1) (keys : ∀ p ∈ kwargs, p.1 = "fill" ∨ p.1 = "prune")
    (values : ∀ p ∈ kwargs, ∃ l, p.2 = .literal l ∧ Literal.Readable l) : Sound e := by
  obtain ⟨readable, accepted⟩ := sound_series series one keys values
  cases h with
  | plain => exact ⟨fun room => readable (room + 1), accepted⟩
  | scaled =>
      refine ⟨fun room => ?_, Registry.accepts_call (takes_times _ _) fun e he => ?_⟩
      · refine .call (isName_of_plain (by decide) (by decide) (by decide)) (fun e he => ?_) nofun nofun .nil
        rcases List.mem_cons.1 he with rfl | he
        · exact .literal finite
        · rw [List.mem_singleton.1 he]
          exact readable room
      · rcases List.mem_cons.1 he with rfl | he
        · exact accepts_literal _
        · rw [List.mem_singleton.1 he]
          exact accepted

/-! ### The formula of a name -/

/-- What joins components that are sound is read from its text and fits the operators. -/
theorem Joins.sound {components : List Expr} {tree : Expr} (h : Joins op components tree)
    (sound : ∀ e ∈ components, Sound e) (isName : Expr.IsName op)
    (takes : ∀ args, 2 ≤ args.length → Registry.builtin.Takes ⟨op, args, []⟩) :
    Expr.parse tree.canonical = .ok tree ∧ Registry.builtin.checkTree tree = .ok () := by
  rw [Registry.checkTree_ok_iff]
  cases h with
  | single =>
      obtain ⟨readable, accepted⟩ := sound tree List.mem_cons_self
      exact ⟨Expr.parse_canonical_of_readable (readable 254), accepted⟩
  | several two =>
      constructor
      · exact Expr.parse_canonical_of_readable
          (.call isName (fun e he => (sound e he).readable 253) nofun nofun .nil)
      · refine Registry.accepts_call (takes _ two) fun e he => ?_
        rcases List.mem_append.1 he with he | he
        · exact (sound e he).accepted
        · cases he

theorem combined?_joins (op : String) {components : List Expr} (nonempty : components ≠ []) :
    ∃ tree, combined? op components = some tree ∧ Joins op components tree := by
  match components, nonempty with
  | [e], _ => exact ⟨e, rfl, .single e⟩
  | a :: b :: rest, _ => exact ⟨_, rfl, .several (by simp)⟩

/-- A name that is seen has a row, so each has its formula, whatever order its rows are put in. -/
theorem exists_formulas (op : String) (name : α → String) (component : α → Expr) {order : List α → List α}
    (perm : ∀ own, (order own).Perm own) (rows : List α) : ∃ tree : String → Expr,
      formulas op component ((groups name rows).map (fun (key, own) => (key, order own))) =
        (rows.map name).eraseDups.map (fun key => (key, tree key)) ∧
      ∀ key ∈ (rows.map name).eraseDups,
        Joins op ((order (rows.filter (fun row => name row = key))).map component) (tree key) := by
  let own := fun key => order (rows.filter (fun row => name row = key))
  have joined : ∀ key ∈ (rows.map name).eraseDups, ∃ tree,
      combined? op ((own key).map component) = some tree ∧ Joins op ((own key).map component) tree := by
    intro key hkey
    obtain ⟨row, hrow, same⟩ := List.mem_map.1 (List.mem_eraseDups.1 hkey)
    have mem : row ∈ own key := (perm _).mem_iff.2 (List.mem_filter.2 ⟨hrow, by simpa using same⟩)
    exact combined?_joins op (List.ne_nil_of_mem (List.mem_map_of_mem mem))
  choose! tree made joins using joined
  refine ⟨tree, ?_, joins⟩
  have eq : formulas op component ((groups name rows).map (fun (key, own) => (key, order own))) =
      (rows.map name).eraseDups.filterMap
        (fun key => (combined? op ((own key).map component)).map (key, ·)) := by
    simp only [formulas, groups, List.filterMap_map]
    rfl
  have made' : ∀ key ∈ (rows.map name).eraseDups,
      (combined? op ((own key).map component)).map (key, ·) = some (key, tree key) := by
    intro key hkey
    rw [made key hkey, Option.map_some]
  rw [eq, List.filterMap_congr made']
  exact congrFun List.filterMap_eq_map _

/-- The formulas of a table tell its rows, however the rows of a name are put in order. -/
theorem tells_formulas {component : α → Expr} {Ordered : List α → List α → Prop} {Means : α → Expr → Prop}
    {order : List α → List α} {rows : List α} (ordered : ∀ own, Ordered own (order own))
    (perm : ∀ own, (order own).Perm own) (means : ∀ row ∈ rows, Means row (component row))
    (sound : ∀ row ∈ rows, Sound (component row)) (isName : Expr.IsName op)
    (takes : ∀ args, 2 ≤ args.length → Registry.builtin.Takes ⟨op, args, []⟩) :
    Tells name op Ordered Means rows
      (texts (formulas op component ((groups name rows).map (fun (key, own) => (key, order own))))) := by
  obtain ⟨tree, made, joins⟩ := exists_formulas op name component perm rows
  have keys : (rows.map name).eraseDups.map (Prod.fst ∘ fun key => (key, (tree key).canonical)) =
      (rows.map name).eraseDups := List.map_id _
  rw [made, texts, List.map_map]
  refine ⟨?_, fun p hp => ?_⟩
  · rw [List.map_map]
    show FirstSeen ((rows.map name).eraseDups.map (Prod.fst ∘ fun key => (key, (tree key).canonical))) _
    rw [keys]
    exact firstSeen_eraseDups _
  · obtain ⟨key, hkey, rfl⟩ := List.mem_map.1 hp
    have mem_own : ∀ row ∈ order (rows.filter (fun row => name row = key)), row ∈ rows :=
      fun row hrow => List.mem_of_mem_filter ((perm _).mem_iff.1 hrow)
    have all : List.Forall₂ Means (order (rows.filter (fun row => name row = key)))
        ((order (rows.filter (fun row => name row = key))).map component) := by
      rw [List.forall₂_map_right_iff, List.forall₂_same]
      exact fun row hrow => means row (mem_own row hrow)
    refine ⟨_, _, tree key, ordered _, all, joins key hkey, (joins key hkey).sound ?_ isName takes⟩
    exact List.forall_mem_map.2 fun row hrow => sound row (mem_own row hrow)

end Alias

theorem ArithmeticRow.means_component (row : ArithmeticRow) : row.Means row.component := by
  unfold component
  cases given : row.fill with
  | none => exact .unfilled (by simp [given]) (Alias.weighs_scaled ..)
  | some fill =>
      by_cases empty : fill = ""
      · subst empty
        exact .unfilled (by simp [given]) (Alias.weighs_scaled ..)
      · have nonempty : fill.isEmpty = false := by simpa using empty
        simp only [nonempty]
        exact .filled given empty (Alias.weighs_scaled ..)

theorem ArithmeticRow.Means.sound {row : ArithmeticRow} {e : Expr} (h : row.Means e)
    (finite : row.coefficient.isFinite = true) : Alias.Sound e := by
  cases h with
  | unfilled _ weighs => exact weighs.sound finite (Nat.zero_le _) nofun nofun
  | filled _ _ weighs =>
      exact weighs.sound finite (le_refl _) (List.forall_mem_singleton.2 (.inl rfl))
        (List.forall_mem_singleton.2 ⟨_, rfl, trivial⟩)

theorem PriorityRow.means_component (row : PriorityRow) : row.Means row.component := by
  unfold component
  cases given : row.prune with
  | none => exact .unpruned (by simp [given]) (Alias.weighs_scaled ..)
  | some n =>
      by_cases zero : n = 0
      · subst zero
        exact .unpruned (by simp [given]) (Alias.weighs_scaled ..)
      · simp only [if_neg zero]
        exact .pruned given zero (Alias.weighs_scaled ..)

theorem PriorityRow.Means.sound {row : PriorityRow} {e : Expr} (h : row.Means e)
    (finite : row.coefficient.isFinite = true) (fits : ∀ n, row.prune = some n → Word.Fits n) :
    Alias.Sound e := by
  cases h with
  | unpruned _ weighs => exact weighs.sound finite (Nat.zero_le _) nofun nofun
  | pruned given _ weighs =>
      exact weighs.sound finite (le_refl _) (List.forall_mem_singleton.2 (.inr rfl))
        (List.forall_mem_singleton.2 ⟨_, rfl, fits _ given⟩)

theorem PriorityRow.ranked_ranked (rows : List PriorityRow) : Ranked rows (ranked rows) := by
  have trans : ∀ a b c : PriorityRow, decide (a.priority ≤ b.priority) = true →
      decide (b.priority ≤ c.priority) = true → decide (a.priority ≤ c.priority) = true := by
    simp only [decide_eq_true_eq]
    exact fun _ _ _ => le_trans
  have total : ∀ a b : PriorityRow,
      (decide (a.priority ≤ b.priority) || decide (b.priority ≤ a.priority)) = true := by
    simp only [Bool.or_eq_true, decide_eq_true_eq]
    exact fun _ _ => le_total _ _
  have perm : (ranked rows).Perm rows := List.mergeSort_perm rows _
  refine ⟨perm, ?_, fun n => ?_⟩
  · exact (List.pairwise_mergeSort trans total rows).imp of_decide_eq_true
  · -- The rows of one priority are in order as they are, so they are found again in the sorted rows.
    have level : (rows.filter (fun row => row.priority = n)).Pairwise
        (fun a b => decide (a.priority ≤ b.priority) = true) := by
      refine List.pairwise_of_forall_mem_list fun a ha b hb => ?_
      have priority : ∀ row ∈ rows.filter (fun row => row.priority = n), row.priority = n :=
        fun row hrow => of_decide_eq_true (List.mem_filter.1 hrow).2
      rw [priority a ha, priority b hb]
      exact decide_eq_true (le_refl n)
    have kept := (List.sublist_mergeSort trans total level List.filter_sublist).filter
      (fun row => decide (row.priority = n))
    simp only [List.filter_filter, Bool.and_self] at kept
    exact (kept.eq_of_length (perm.filter _).length_eq.symm).symm

namespace Alias

/-- Tables with finite coefficients are told by the texts that are made of them: sums row by row, and
    priorities in ascending order. -/
theorem texts_tell (sums : List ArithmeticRow) (priorities : List PriorityRow)
    (sumsFinite : ∀ row ∈ sums, row.coefficient.isFinite = true)
    (prioritiesFinite : ∀ row ∈ priorities, row.coefficient.isFinite = true)
    (fits : ∀ row ∈ priorities, ∀ n, row.prune = some n → Word.Fits n) :
    Tells ArithmeticRow.name "add" (fun own ordered => ordered = own) ArithmeticRow.Means sums
        (texts (ArithmeticRow.formulas sums)) ∧
      Tells PriorityRow.name "priority" PriorityRow.Ranked PriorityRow.Means priorities
        (texts (PriorityRow.formulas priorities)) := by
  constructor
  · have asGiven : (groups ArithmeticRow.name sums).map (fun (key, own) => (key, id own)) =
        groups ArithmeticRow.name sums := List.map_id _
    rw [ArithmeticRow.formulas, ← asGiven]
    exact tells_formulas (fun _ => rfl) (fun _ => .refl _) (fun row _ => row.means_component)
      (fun row hrow => row.means_component.sound (sumsFinite row hrow))
      (isName_of_plain (by decide) (by decide) (by decide))
      (takes_several (o := Operator.add) (by simp [Operator.builtins]) rfl (by decide))
  · exact tells_formulas PriorityRow.ranked_ranked (fun own => (PriorityRow.ranked_ranked own).perm)
      (fun row _ => row.means_component)
      (fun row hrow => row.means_component.sound (prioritiesFinite row hrow) (fits row hrow))
      (isName_of_plain (by decide) (by decide) (by decide))
      (takes_several (o := Operator.priority) (by simp [Operator.builtins]) rfl (by decide))

theorem texts_tell_net_best :
    Tells ArithmeticRow.name "add" (fun own ordered => ordered = own) ArithmeticRow.Means
      [⟨"net", "a\"b", 1, some "ffill"⟩, ⟨"twice", "c", 2, some ""⟩, ⟨"net", "d\n", -1.5, none⟩]
      [("net", "(add (series \"a\\\"b\" #:fill \"ffill\") (* -1.5 (series \"d\\n\")))"),
        ("twice", "(* 2.0 (series \"c\"))")] ∧
    Tells PriorityRow.name "priority" PriorityRow.Ranked PriorityRow.Means
      [⟨"best", "x", 2, 0.5, some 0⟩, ⟨"best", "y", 1, 1, some 3⟩]
      [("best", "(priority (series \"y\" #:prune 3) (* 0.5 (series \"x\")))")] := by
  have told := texts_tell
    [⟨"net", "a\"b", 1, some "ffill"⟩, ⟨"twice", "c", 2, some ""⟩, ⟨"net", "d\n", -1.5, none⟩]
    [⟨"best", "x", 2, 0.5, some 0⟩, ⟨"best", "y", 1, 1, some 3⟩]
    (by decide +kernel) (by decide +kernel) (by simp [Word.Fits])
  have sums : texts (ArithmeticRow.formulas
      [⟨"net", "a\"b", 1, some "ffill"⟩, ⟨"twice", "c", 2, some ""⟩, ⟨"net", "d\n", -1.5, none⟩]) =
      [("net", "(add (series \"a\\\"b\" #:fill \"ffill\") (* -1.5 (series \"d\\n\")))"),
        ("twice", "(* 2.0 (series \"c\"))")] := by decide +kernel
  have grouped : groups PriorityRow.name
      [⟨"best", "x", 2, 0.5, some 0⟩, ⟨"best", "y", 1, 1, some 3⟩] =
      [("best", [⟨"best", "x", 2, 0.5, some 0⟩, ⟨"best", "y", 1, 1, some 3⟩])] := by decide +kernel
  have ranked : PriorityRow.ranked [⟨"best", "x", 2, 0.5, some 0⟩, ⟨"best", "y", 1, 1, some 3⟩] =
      [⟨"best", "y", 1, 1, some 3⟩, ⟨"best", "x", 2, 0.5, some 0⟩] := by
    simp [PriorityRow.ranked, List.mergeSort, List.MergeSort.Internal.splitInTwo]
  have priorities : texts (PriorityRow.formulas
      [⟨"best", "x", 2, 0.5, some 0⟩, ⟨"best", "y", 1, 1, some 3⟩]) =
      [("best", "(priority (series \"y\" #:prune 3) (* 0.5 (series \"x\")))")] := by
    simp only [PriorityRow.formulas, grouped, List.map_cons, List.map_nil, ranked]
    decide +kernel
  rw [sums, priorities] at told
  exact told

end Alias

end SeriesLang
