import SeriesLang.Proofs.Expr.Rename
import SeriesLang.Proofs.Query.Refinement
import SeriesLang.Proofs.Store.History

/-! # Evaluating renamed expressions

What an expression is worth it is still worth when a series has got another name, in the store, in the
expression and in all formulas, if nothing read that name before. The two evaluations go side by side: where
the first one asks for a name, the second one asks for what became of the name.
-/

namespace SeriesLang

variable {old new name : String}

namespace Store

/-- Give all revisions of a series to another name. -/
def rename (store : Store) (old new : String) : Store :=
  match store.find? old with
  | some s => (store.remove old).modify new (fun _ => s)
  | none => store

variable {store : Store}

theorem find?_remove (store : Store) (name other : String) :
    (store.remove name).find? other = if other = name then none else store.find? other :=
  Sorted.get?_erase name other store.entries

theorem find?_rename_new {s : StoredSeries} (h : store.find? old = some s) :
    (store.rename old new).find? new = some s := by
  simp only [rename, h, find?_modify, if_true]

theorem find?_rename_of_ne (fresh : name ≠ new) (kept : name ≠ old) :
    (store.rename old new).find? name = store.find? name := by
  unfold rename
  split
  · rw [find?_modify, if_neg fresh.symm, find?_remove, if_neg kept]
  · rfl

/-- A series is read under its name as before, or under the new one. -/
theorem get?_rename (fresh : name ≠ new) {w : Window} {revision : Option Instant} {s : Series}
    (h : store.get? name w revision = some s) :
    (store.rename old new).get? (if name = old then new else name) w revision = some s := by
  unfold get? at h ⊢
  split
  · rename_i renamed
    subst renamed
    obtain ⟨found, hfound, rfl⟩ := Option.map_eq_some_iff.1 h
    rw [find?_rename_new hfound]
    rfl
  · rename_i kept
    rw [find?_rename_of_ne fresh kept, h]

end Store

namespace Expr

/-- The first argument of an application of `series` does not name what the application does not read. -/
theorem text?_ne_of_unread {e : Expr} {rest : List Expr} {kwargs : List (String × Expr)}
    (h : name ∉ (Expr.call ⟨"series", e :: rest, kwargs⟩).seriesNames) : e.text? ≠ some name :=
  fun text => h (mem_seriesNames_self (by rw [Application.seriesName?_of_op rfl]; exact text))

mutual

/-- Where a name is not read, nothing is renamed. -/
theorem renameSeries_of_unread (new : String) :
    (e : Expr) → old ∉ e.seriesNames → renameSeries old new e = e
  | .literal _, _ => rfl
  | .symbol _, _ => rfl
  | .call ⟨op, args, kwargs⟩, unread => by
      have inside : ∀ e ∈ (⟨op, args, kwargs⟩ : Call).arguments, old ∉ e.seriesNames :=
        fun e he reads => unread (mem_seriesNames_of_argument he reads)
      have positional : renameArgs old new args = args :=
        renameArgs_of_unread new args fun e he => inside e (List.mem_append_left _ he)
      have first : op = "series" → renameFirst old new args = args := by
        rintro rfl
        cases args with
        | nil => rfl
        | cons e rest =>
            rw [renameFirst, if_neg (text?_ne_of_unread unread)]
            exact positional
      rw [renameSeries, positional, renameKwargs_of_unread new kwargs fun p hp =>
        inside p.2 (List.mem_append_right _ (List.mem_map_of_mem hp))]
      split
      · rename_i op
        rw [first op]
      · rfl

theorem renameArgs_of_unread (new : String) :
    (es : List Expr) → (∀ e ∈ es, old ∉ e.seriesNames) → renameArgs old new es = es
  | [], _ => rfl
  | e :: rest, unread => by
      rw [renameArgs, renameSeries_of_unread new e (unread e List.mem_cons_self),
        renameArgs_of_unread new rest fun e he => unread e (List.mem_cons_of_mem _ he)]

theorem renameKwargs_of_unread (new : String) : (es : List (String × Expr)) →
    (∀ p ∈ es, old ∉ p.2.seriesNames) → renameKwargs old new es = es
  | [], _ => rfl
  | (key, e) :: rest, unread => by
      rw [renameKwargs, renameSeries_of_unread new e (unread (key, e) List.mem_cons_self),
        renameKwargs_of_unread new rest fun p hp => unread p (List.mem_cons_of_mem _ hp)]

end

/-- An expression that does not read a new name, and what it becomes when that name is given to a series. -/
structure Renamed (old new : String) (e e' : Expr) : Prop where
  unread : new ∉ e.seriesNames
  tree : e' = renameSeries old new e

/-- Keyword values are renamed one by one. -/
theorem forall₂_renameKwargs {op : String} {args : List Expr} {kwargs : List (String × Expr)}
    (unread : new ∉ (Expr.call ⟨op, args, kwargs⟩).seriesNames) : List.Forall₂
      (fun p q => p.1 = q.1 ∧ Renamed old new p.2 q.2) kwargs (renameKwargs old new kwargs) := by
  rw [renameKwargs_eq_map, List.forall₂_map_right_iff, List.forall₂_same]
  exact fun p hp => ⟨rfl, fun reads => unread (mem_seriesNames_of_argument
    (List.mem_append_right _ (List.mem_map_of_mem hp)) reads), rfl⟩

/-- Arguments are renamed one by one, but for the name in an application of `series`. -/
theorem similar_renamed {op : String} {args : List Expr} {kwargs : List (String × Expr)}
    (other : op ≠ "series") (unread : new ∉ (Expr.call ⟨op, args, kwargs⟩).seriesNames) :
    Application.Similar (Renamed old new) ⟨op, args, kwargs⟩
      ⟨op, renamedArgs old new op args, renameKwargs old new kwargs⟩ where
  op := rfl
  args := by
    show List.Forall₂ _ args _
    rw [renamedArgs, if_neg other, renameArgs_eq_map, List.forall₂_map_right_iff, List.forall₂_same]
    exact fun e he => ⟨fun reads => unread (mem_seriesNames_of_argument
      (List.mem_append_left _ he) reads), rfl⟩
  kwargs := forall₂_renameKwargs unread

end Expr

/-- A catalog before and after a series was renamed in its formulas. Neither name is one of a formula. -/
structure Catalog.Renamed (old new : String) (catalog catalog' : Catalog) : Prop where
  formula : ∀ {name tree}, catalog name = .ok (some tree) →
    ∃ tree', catalog' name = .ok (some tree') ∧ tree.Renamed old new tree'
  unnamed : ∀ {name}, catalog name = .ok none → catalog' name = .ok none
  oldUnnamed : catalog old = .ok none
  newUnnamed : catalog new = .ok none

namespace Operator

theorem series_checkCall {call : Call} {path : Path}
    (h : series.signature.checkCall call path = .ok ()) : ∃ e, call.args = [e] := by
  refine List.length_eq_one_iff.1 ?_
  unfold Signature.checkCall Signature.checkShape at h
  have required : series.signature.requiredCount = 1 := rfl
  have most : series.signature.positional.length = 1 := rfl
  have rest : series.signature.rest.isNone = true := rfl
  simp only [required, most, rest, Bool.true_and, decide_eq_true_eq] at h
  split at h
  · cases h
  · split at h
    · cases h
    · omega

/-- The argument of `series` is bound if it is a name, and any other name is bound alike. -/
theorem bind_series {op : String} {path : Path} {v : Value} {keywords : List (String × Value)} {b : Bound}
    (h : series.signature.bind op path [v] keywords = .ok b) : ∃ name, v = .str name ∧
      b.positional = [.str name] ∧ ∀ path' name',
        series.signature.bind op path' [.str name'] keywords = .ok ⟨[.str name'], b.keywords⟩ := by
  obtain ⟨shape, taken, bound⟩ := Signature.bind_eq_ok_iff.1 h
  cases v with
  | str name =>
      refine ⟨name, rfl, (Except.ok.inj taken).symm, fun path' name' => ?_⟩
      have shape' := (Signature.alike_checkShape op path path' series.signature _ _).ok shape
      have bound' := (Signature.alike_bindKeywords op path path' _ _ _).ok bound
      exact Signature.bind_eq_ok_iff.2 ⟨shape', rfl, bound'⟩
  | _ => cases taken

end Operator

namespace Env

variable {env env' : Env} {catalog catalog' : Catalog} {eval eval' : Evaluator} {R : Expr → Expr → Prop}
  {context : Context} {path : Path}

/-- To read a series by name is to fetch it and to shape it as the keywords want it. -/
theorem answer_readSeries {args : Arguments} (sees : args.context = some context)
    (text : args.positional = [.str name]) : env.answer eval path (Operator.readSeries args) =
      (env.fetch eval context path name).bind fun s => .done (.series (Operator.shaped args s)) := by
  have context : args.requireContext = .ok context := by rw [Arguments.requireContext, sees]
  have text : args.textAt 0 = .ok name := by
    rw [Arguments.textAt, Arguments.positionalAt, text]
    rfl
  unfold Operator.readSeries
  rw [context, text]
  rfl

/-- How an application of `series` is evaluated: its argument is the name by which the series is fetched. -/
structure ReadsAs (env : Env) (catalog : Catalog) (eval : Evaluator) (context : Context) (path : Path)
    (call : Call) (e : Expr) (name : String) (keywords : List (String × Value)) (b : Bound) (s : Series) :
    Prop where
  clear : env.checkpoint path = .ok ()
  shape : Operator.series.signature.checkCall call path = .ok ()
  sole : call.args = [e]
  text : (eval context path (toString 0) e).run catalog = .ok (.str name)
  given : (evalKwargs eval context path call.kwargs).run catalog = .ok keywords
  bound : Operator.series.signature.bind call.op path [.str name] keywords = .ok b
  fetched : (env.fetch eval context path name).run catalog = .ok s

theorem find_series (builtin : env.registry = .builtin) {call : Call} (op : call.op = "series")
    (path : Path) : env.registry.find call.op path = .ok Operator.series := by
  rw [Registry.find, builtin, op, Registry.builtin_get?_series]

theorem readsAs_of_run (builtin : env.registry = .builtin) {call : Call} (op : call.op = "series")
    {v : Value} (h : (env.evalCall eval context path call).run catalog = .ok v) :
    ∃ e name keywords b s, env.ReadsAs catalog eval context path call e name keywords b s ∧
      v = .series (Operator.shaped ⟨call.op, path, b.positional, b.keywords, some context⟩ s) := by
  obtain ⟨clear, o, found, shape, applied⟩ := evalCall_ok_iff.1 h
  obtain rfl : Operator.series = o := Except.ok.inj ((find_series builtin op path).symm.trans found)
  obtain ⟨⟨⟩⟩ | @⟨_, positional, keywords, b, ⟨⟩, first, given, bound, answered⟩ := applied
  obtain ⟨e, sole⟩ := Operator.series_checkCall shape
  rw [sole] at first
  obtain ⟨v, text, first⟩ := Query.ok_of_run_bind first
  cases first
  obtain ⟨name, rfl, hname, -⟩ := Operator.bind_series bound
  rw [answer_readSeries rfl hname] at answered
  obtain ⟨s, fetched, shaped⟩ := Query.ok_of_run_bind answered
  cases shaped
  exact ⟨e, name, keywords, b, s, ⟨clear, shape, sole, text, given, bound, fetched⟩, rfl⟩

theorem ReadsAs.run (builtin : env.registry = .builtin) {call : Call} (op : call.op = "series") {e : Expr}
    {keywords : List (String × Value)} {b : Bound} {s : Series}
    (h : env.ReadsAs catalog eval context path call e name keywords b s) :
    (env.evalCall eval context path call).run catalog =
      .ok (.series (Operator.shaped ⟨call.op, path, b.positional, b.keywords, some context⟩ s)) := by
  have positional : (evalArgs eval context path 0 call.args).run catalog = .ok [.str name] := by
    rw [h.sole]
    exact (Query.run_bind_ok h.text).trans rfl
  obtain ⟨_, same, named, -⟩ := Operator.bind_series h.bound
  cases same
  refine evalCall_ok_iff.2 ⟨h.clear, _, find_series builtin op path, h.shape,
    .values rfl positional h.given h.bound ?_⟩
  rw [answer_readSeries rfl named]
  exact (Query.run_bind_ok h.fetched).trans rfl

/-- An application of `series` has its value in the other evaluation if the same series is found there by
    what became of its name. -/
theorem Tracks.series (tracks : Tracks catalog catalog' eval eval' R) (builtin : env.registry = .builtin)
    (builtin' : env'.registry = .builtin)
    (clears : ∀ path path', Alike (env.checkpoint path) (env'.checkpoint path')) {call call' : Call}
    (op : call.op = "series") (op' : call'.op = "series") (counts : call.args.length = call'.args.length)
    (named : ∀ {context path slot name e e'}, call.args = [e] → call'.args = [e'] →
      (eval context path slot e).run catalog = .ok (.str name) →
      ∃ name', (∀ path', (eval' context path' slot e').run catalog' = .ok (.str name')) ∧
        ∀ {s}, (env.fetch eval context path name).run catalog = .ok s →
          ∀ path', (env'.fetch eval' context path' name').run catalog' = .ok s)
    (kwargs : List.Forall₂ (fun p q => p.1 = q.1 ∧ R p.2 q.2) call.kwargs call'.kwargs) {v : Value}
    (yields : (env.evalCall eval context path call).run catalog = .ok v) (path' : Path) :
    (env'.evalCall eval' context path' call').run catalog' = .ok v := by
  obtain ⟨e, name, keywords, b, s, reads, rfl⟩ := readsAs_of_run builtin op yields
  obtain ⟨e', sole⟩ : ∃ e', call'.args = [e'] :=
    List.length_eq_one_iff.1 (by rw [← counts, reads.sole, List.length_singleton])
  obtain ⟨name', text, fetched⟩ := named reads.sole sole reads.text
  obtain ⟨_, -, -, rebound⟩ := Operator.bind_series reads.bound
  have shape : Operator.series.signature.checkCall call' path' = .ok () := by
    refine Alike.ok ?_ reads.shape
    unfold Signature.checkCall
    rw [op, op', counts, Application.names_eq kwargs]
    exact Signature.alike_checkShape ..
  have reads' : env'.ReadsAs catalog' eval' context path' call' e' name' keywords
      ⟨[.str name'], b.keywords⟩ s :=
    { clear := (clears path path').ok reads.clear
      shape
      sole
      text := text path'
      given := tracks.kwargs kwargs reads.given path'
      bound := by
        rw [op', ← op]
        exact rebound path' name'
      fetched := fetched reads.fetched path' }
  -- The keywords alone say how the series is shaped.
  exact reads'.run builtin' op'

/-- The surroundings of a query after a series was renamed in the store. -/
def renamed (env : Env) (old new : String) : Env :=
  { env with store := env.store.rename old new }

/-- A name and what became of it stand for the same series. -/
theorem partners_renamed (free : env.leaves = []) (catalogs : catalog.Renamed old new catalog')
    (fresh : name ≠ new) : Partners env (env.renamed old new) catalog catalog' (Expr.Renamed old new) name
      (if name = old then new else name) where
  leaf := by
    rw [renamed, free]
    rfl
  formula tree named := by
    rw [if_neg]
    · exact catalogs.formula named
    · rintro rfl
      cases named.symm.trans catalogs.oldUnnamed
  stored unnamed := by
    refine ⟨?_, fun w revision s found => Store.get?_rename fresh found⟩
    split
    · exact catalogs.unnamed catalogs.newUnnamed
    · exact catalogs.unnamed unnamed

/-- A name of a series is worth what became of it. -/
theorem run_renamed_text {e : Expr} (text : e.text? = some name) (n : Nat) (context : Context)
    (path : Path) (slot : String) : (env.evalAt n context path slot
      (if e.text? = some old then .literal (.str new) else Expr.renameSeries old new e)).run catalog =
        .ok (.str (if name = old then new else name)) := by
  rw [text]
  simp only [Option.some.injEq]
  split
  · cases n <;> rfl
  · cases e with
    | literal l =>
        cases l with
        | str s =>
            cases text
            cases n <;> rfl
        | _ => cases text
    | symbol s =>
        cases text
        cases n <;> rfl
    | call call => cases text

/-- With as many levels left, an expression has its value after a series was renamed in it, in the formulas
    and in the store. -/
theorem tracks_renamed (builtin : env.registry = .builtin) (free : env.leaves = [])
    (catalogs : catalog.Renamed old new catalog') (n : Nat) :
    Tracks catalog catalog' (env.evalAt n) ((env.renamed old new).evalAt n) (Expr.Renamed old new) := by
  have builtin' : (env.renamed old new).registry = .builtin := builtin
  have clears : ∀ path path', Alike (env.checkpoint path) ((env.renamed old new).checkpoint path') :=
    alike_checkpoint env
  induction n with
  | zero =>
      rintro context path slot e _ v ⟨unread, rfl⟩ yields path' slot'
      cases e with
      | literal l => exact yields
      | symbol name => exact yields
      | call call => cases yields
  | succ n ih =>
      rintro context path slot e _ v ⟨unread, rfl⟩ yields path' slot'
      cases e with
      | literal l => exact yields
      | symbol name => exact yields
      | call call =>
          obtain ⟨op, args, kwargs⟩ := call
          rw [Expr.renameSeries_call]
          by_cases series : op = "series"
          · subst series
            refine ih.series builtin builtin' clears rfl rfl
              (Expr.length_renamedArgs old new "series" args).symm ?_
              (Expr.forall₂_renameKwargs unread) yields _
            rintro context path slot name e _ rfl ⟨⟩ text
            have given : e.text? = some name := Yields.text? builtin ⟨path, slot, text⟩
            have fresh : name ≠ new := by
              rintro rfl
              exact Expr.text?_ne_of_unread unread given
            have partners := partners_renamed free catalogs fresh
            exact ⟨_, fun path' => run_renamed_text given n context path' slot,
              fun fetched => ih.fetch clears partners fetched⟩
          · exact ih.call builtin builtin' clears (fun reads => absurd reads series)
              (Expr.similar_renamed series unread) yields _

/-- What an expression is worth that does not read the new name, the renamed one is worth afterwards. -/
theorem evaluate_renamed (builtin : env.registry = .builtin) (free : env.leaves = [])
    (catalogs : catalog.Renamed old new catalog') {e : Expr} (unread : new ∉ e.seriesNames) {v : Value}
    (h : (env.evaluate context e).run catalog = .ok v) :
    ((env.renamed old new).evaluate context (e.renameSeries old new)).run catalog' = .ok v :=
  tracks_renamed builtin free catalogs env.maxDepth ⟨unread, rfl⟩ h .root ""

end Env

end SeriesLang
