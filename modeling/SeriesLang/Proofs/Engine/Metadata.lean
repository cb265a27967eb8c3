import SeriesLang.Proofs.Database.Metadata
import SeriesLang.Proofs.Engine.Traffic
import SeriesLang.Proofs.Engine.Writing

/-! # Metadata in the course of traffic

Whoever tells something of a formula, by registering it or by merging metadata, it is noted from the moment at
which the formula is stored. Its metadata shows what was noted, whatever else happens in between.
-/

namespace SeriesLang

open Telling (Records?)

/-- A formula that is registered as it was planned shows what was given, too. -/
theorem Registration.Planned.records? {db : Database} {name : String} {given : Option Json} {w : FormulaWrite}
    {log : List Telling} (planned : Planned name (db.metadata? name) given w)
    (h : Records? log (db.metadata? name)) (refreshed : List (String × List String)) :
    Records? (.registered given :: log) ((db.registered w refreshed).metadata? name) := by
  obtain ⟨m, told⟩ := planned.metadata
  rw [Database.metadata?_registered, if_pos planned.name, Database.metadataFor, told]
  exact h.registered m given

namespace Command

variable {name : String} {s : Session} {log : List Telling}

/-- What was told of a formula since it is stored, once a command is done. -/
def told (name : String) (s : Session) (log : List Telling) : Command → List Telling
  | .register other text options =>
    if other = name ∧ (Engine.register other text options s).1.isOk = true then
      .registered options.metadata :: log
    else log
  | .importAliases arithmetic priority =>
    if s.database.formulas.contains name = false ∧
        (Engine.importAliases arithmetic priority s).2.database.formulas.contains name = true then
      [.registered none]
    else log
  | .updateMetadata other json =>
    if other = name ∧ s.database.formulas.contains name = true then .merged json :: log else log
  | .delete other => if other = name then [] else log
  | _ => log

/-- A command all of whose writes leave a formula's metadata alone. -/
theorem metadata?_of_spares (command : Command) (s : Session)
    (spares : ∀ {db w}, Issues db command w → w.Spares name) :
    (command.action s).2.database.metadata? name = s.database.metadata? name :=
  (command.leaves_written s).keeps (I := fun db => db.metadata? name = s.database.metadata? name)
    (fun issued same => ((spares issued).metadata? _).trans same) rfl

theorem records?_unchanged {command : Command} (h : Records? log (s.database.metadata? name))
    (spares : ∀ {db w}, Issues db command w → w.Spares name) :
    Records? log ((command.action s).2.database.metadata? name) :=
  metadata?_of_spares command s spares ▸ h

theorem records?_register (h : Records? log (s.database.metadata? name)) (other text : String)
    (options : RegisterOptions) :
    Records? (told name s log (.register other text options))
      ((Engine.register other text options s).2.database.metadata? name) := by
  obtain ⟨success, failure⟩ := Engine.contract_register_writes (s := s) other text options s rfl
  rw [told]
  cases outcome : Engine.register other text options s with
  | mk result t =>
      cases result with
      | error e =>
          rw [if_neg fun h => nomatch h.2]
          exact failure e t outcome ▸ h
      | ok id =>
          obtain ⟨w, refreshed, resolvedAt, planned, written⟩ := success id t outcome
          have left : t.database = s.database.registered w refreshed := Database.writeFormula_ok written
          show Records? _ (t.database.metadata? name)
          rw [left]
          by_cases same : other = name
          · subst same
            rw [if_pos ⟨rfl, rfl⟩]
            exact planned.records? h refreshed
          · rw [if_neg fun h => same h.1, Database.metadata?_registered,
              if_neg fun named => same (planned.name.symm.trans named)]
            exact h

/-- What an import writes is the first that is stored of a formula. -/
theorem Issues.records?_imported {db : Database} {w : Database.Write} {arithmetic : List ArithmeticRow}
    {priority : List PriorityRow} (issued : Issues db (.importAliases arithmetic priority) w) (name : String) :
    (w.run db).metadata? name = db.metadata? name ∨
      db.metadata? name = none ∧ Records? [.registered none] ((w.run db).metadata? name) := by
  cases issued with
  | @imported _ _ other w refreshed resolvedAt fresh planned =>
      by_cases same : other = name
      · subst same
        have absent : db.metadata? other = none := by
          rw [← Option.isNone_iff_eq_none, ← Option.isSome_eq_false_iff, Database.isSome_metadata?, fresh]
        have planned : Registration.Planned other (db.metadata? other) none w := by rwa [absent]
        cases written : db.writeFormula w false refreshed resolvedAt with
        | error e =>
            rw [Database.Write.run, written]
            exact .inl rfl
        | ok result =>
            rw [Database.Write.run_formula written, Database.writeFormula_ok written]
            exact .inr ⟨absent, planned.records? (by rw [absent]; exact .absent) refreshed⟩
      · have spares : Database.Write.Spares name (.formula w false refreshed resolvedAt) :=
          fun named => same (planned.name.symm.trans named)
        exact .inl (spares.metadata? db)

theorem records?_importAliases (h : Records? log (s.database.metadata? name)) (arithmetic : List ArithmeticRow)
    (priority : List PriorityRow) :
    Records? (told name s log (.importAliases arithmetic priority))
      ((Engine.importAliases arithmetic priority s).2.database.metadata? name) := by
  have stays : (s.database.metadata? name = none ∧ Records? [.registered none]
        ((Engine.importAliases arithmetic priority s).2.database.metadata? name)) ∨
      (Engine.importAliases arithmetic priority s).2.database.metadata? name = s.database.metadata? name := by
    have written := leaves_written (.importAliases arithmetic priority) s
    rw [action] at written
    refine written.keeps (I := fun db =>
      (s.database.metadata? name = none ∧ Records? [.registered none] (db.metadata? name)) ∨
        db.metadata? name = s.database.metadata? name) (fun {db w} issued before => ?_) (.inr rfl)
    rcases issued.records?_imported name with same | ⟨absent, shows⟩
    · rwa [same]
    · rcases before with ⟨-, stored⟩ | same
      · rw [absent] at stored
        cases stored
      · exact .inl ⟨same ▸ absent, shows⟩
  simp only [told, ← Database.isSome_metadata?]
  rcases stays with ⟨absent, shows⟩ | same
  · rw [absent] at h ⊢
    cases stored : (Engine.importAliases arithmetic priority s).2.database.metadata? name with
    | none =>
        rw [stored] at shows
        cases shows
    | some json =>
        rw [if_pos ⟨rfl, rfl⟩, ← stored]
        exact shows
  · have unchanged : ¬((s.database.metadata? name).isSome = false ∧ (s.database.metadata? name).isSome = true) :=
      fun both => Bool.false_ne_true (both.1.symm.trans both.2)
    rw [same, if_neg unchanged]
    exact h

theorem records?_updateMetadata (h : Records? log (s.database.metadata? name)) (other : String) (json : Json) :
    Records? (told name s log (.updateMetadata other json))
      ((Engine.updateMetadata other json s).2.database.metadata? name) := by
  rw [told, Engine.updateMetadata, Action.run_bind]
  dsimp only [Action.database]
  cases stored : s.database.formulas.row? other with
  | none =>
      have absent : ¬(other = name ∧ s.database.formulas.contains name = true) := by
        rintro ⟨rfl, here⟩
        rw [← Database.isSome_metadata?, Database.metadata?, stored] at here
        cases here
      rw [if_neg absent]
      exact h
  | some row =>
      show Records? _ ((s.database.setMetadata other (row.metadata.merge json)).2.metadata? name)
      rw [Database.metadata?_setMetadata]
      by_cases same : other = name
      · subst same
        have known : s.database.metadata? other = some row.metadata := by rw [Database.metadata?, stored]; rfl
        rw [if_pos ⟨rfl, Table.contains_of_row? stored⟩, if_pos rfl, known]
        rw [known] at h
        cases h with
        | stored h => exact .stored (h.merged json)
      · rw [if_neg fun h => same h.1, if_neg fun h => same h.symm]
        exact h

/-- What a command leaves of a formula's metadata shows what was told of it. -/
theorem records?_told (command : Command) (apart : ∀ backup, command ≠ .restore backup)
    (h : Records? log (s.database.metadata? name)) :
    Records? (command.told name s log) ((command.action s).2.database.metadata? name) := by
  cases command with
  | register other text options =>
      rw [action]
      exact records?_register h other text options
  | importAliases arithmetic priority =>
      rw [action]
      exact records?_importAliases h arithmetic priority
  | updateMetadata other json =>
      rw [action]
      exact records?_updateMetadata h other json
  | delete other =>
      show Records? _ ((s.database.deleteFormula other).2.metadata? name)
      rw [told, Database.metadata?_deleteFormula]
      split
      · rename_i same
        rw [if_pos same.symm]
        exact .absent
      · rename_i other
        rw [if_neg fun same => other same.symm]
        exact h
  | restore backup => exact absurd rfl (apart backup)
  | rename old new =>
      refine records?_unchanged h fun issued => ?_
      cases issued with
      | rename untold => exact fun w mem _ => untold w mem
  | registerGroup => exact records?_unchanged h fun issued => by cases issued; trivial
  | registerBinding => exact records?_unchanged h fun issued => by cases issued; trivial
  | _ => exact records?_unchanged h fun issued => by cases issued

end Command

/-- Events that bring no backup back, and that write nothing to a formula's metadata past the engines. -/
def Event.Spares (name : String) : Event → Prop
  | .command _ (.restore _) => False
  | .write w => w.Spares name
  | _ => True

namespace Shared

variable {name : String} {c : Shared} {log : List Telling}

/-- What was told of a formula since it is stored, once an event has happened. -/
def told (c : Shared) (name : String) (log : List Telling) : Event → List Telling
  | .command i command =>
    match c.engines[i]? with
    | some engine => command.told name ⟨engine, c.database⟩ log
    | none => log
  | _ => log

/-- What was told of a formula since it is stored. -/
inductive Told (name : String) : List Telling → Shared → Prop
  | none {c : Shared} (absent : c.database.formulas.contains name = false) : Told name [] c
  | step {log : List Telling} {c : Shared} (h : Told name log c) (event : Event) (spares : event.Spares name) :
      Told name (c.told name log event) (c.happen event)

theorem records?_happen (h : Records? log (c.database.metadata? name)) {event : Event}
    (spares : event.Spares name) :
    Records? (c.told name log event) ((c.happen event).database.metadata? name) := by
  cases event with
  | join store config =>
      have same : (Database.Write.run c.database .stamp).metadata? name = c.database.metadata? name :=
        Database.Write.Spares.metadata? (w := .stamp) trivial c.database
      rw [Database.Write.run] at same
      rw [happen]
      cases stamped : c.database.stamp with
      | ok db =>
          rw [stamped] at same
          exact same ▸ h
      | error e => exact h
  | command i command =>
      rw [happen, told, act]
      cases c.engines[i]? with
      | none => exact h
      | some engine =>
          exact command.records?_told (s := ⟨engine, c.database⟩) (fun backup same => by subst same; exact spares) h
  | write w =>
      have same := Database.Write.Spares.metadata? spares c.database
      exact same ▸ h

theorem Told.records (h : Told name log c) : Records? log (c.database.metadata? name) := by
  induction h with
  | none absent =>
      rw [← Database.isSome_metadata?, Option.isSome_eq_false_iff, Option.isNone_iff_eq_none] at absent
      rw [absent]
      exact .absent
  | step h event spares ih => exact records?_happen ih spares

/-- An event, with what was told of a formula by then. -/
def tell (name : String) (p : Shared × List Telling) (event : Event) : Shared × List Telling :=
  (p.1.happen event, p.1.told name p.2 event)

theorem Told.foldl (h : Told name log c) (events : List Event) (spares : ∀ event ∈ events, event.Spares name) :
    Told name (events.foldl (tell name) (c, log)).2 (events.foldl (tell name) (c, log)).1 := by
  induction events generalizing c log with
  | nil => exact h
  | cons event events ih =>
      obtain ⟨first, others⟩ := List.forall_mem_cons.1 spares
      exact ih (h.step event first) others

/-- A formula of which something was told is stored, with an object that shows it. -/
theorem Told.shows (h : Told name log c) (noted : log ≠ []) : ∃ row fields,
    c.database.formulas.row? name = some row ∧ row.metadata = .obj fields ∧
      ∀ key, Telling.Shows key log (Sorted.get? key fields) := by
  have records := h.records
  cases stored : c.database.formulas.row? name with
  | none =>
      rw [Database.metadata?, stored, Option.map_none] at records
      cases records
      exact absurd rfl noted
  | some row =>
      rw [Database.metadata?, stored, Option.map_some] at records
      cases records with
      | stored records =>
          obtain ⟨fields, same, -, shows⟩ := records
          exact ⟨row, fields, rfl, same, shows⟩

/-- A key that a caller has supplied since a formula is stored, with its text or merged into its metadata, holds the
    last value, whoever registers the formula again, merges other keys or renames what it reads. Only if a later
    registration leaves out a key that series tell, too, it holds what the series told. A value without floats is
    kept as it is, any other one as its text reads. -/
theorem supplied_metadata (h : Told name log c) {key : String} {v : Json}
    (supplied : Telling.last? key log = some v) :
    ∃ row, c.database.formulas.row? name = some row ∧
      ((¬Telling.Overlaid key log ∧ ∃ w, row.metadata.field? key = some w ∧ v.Reread w ∧ (v.Plain → w = v)) ∨
        (Telling.Overlaid key log ∧ ∃ m : SeriesMeta, row.metadata.field? key = m.toJson.field? key)) := by
  have noted : log ≠ [] := by
    rintro rfl
    cases supplied
  obtain ⟨row, fields, stored, same, shows⟩ := h.shows noted
  refine ⟨row, stored, ?_⟩
  rw [same]
  rcases shows key v supplied with ⟨overlaid, m, told⟩ | ⟨kept, w, told, reread⟩
  · exact .inr ⟨overlaid, m, told.trans (m.field?_toJson key).symm⟩
  · exact .inl ⟨kept, w, told, reread, reread.eq⟩

/-- Two engines tell of a formula, what it reads is renamed, and it is registered again with nothing given. -/
theorem supplied_metadata_owner : ∃ (log : List Telling) (c : Shared) (row : FormulaRow), Told "f" log c ∧
    Telling.last? "owner" log = some (.str "bob") ∧ c.database.formulas.row? "f" = some row ∧
    row.text = "(series \"t\")" ∧ row.metadata.field? "owner" = some (.str "bob") := by
  let given : Json := .obj [("owner", .str "ann"), ("unit", .str "MW")]
  let events : List Event := [.join {} {}, .join {} {},
    .command 0 (.register "f" "(series \"s\")" { metadata := some given, rejectUnknown := false }),
    .command 1 (.updateMetadata "f" (.obj [("owner", .str "bob")])), .command 0 (.rename "s" "t"),
    .command 1 (.register "f" "(series \"t\")" { rejectUnknown := false, update := true })]
  have untold : Told "f" [] start := .none rfl
  obtain ⟨log, c, told, last, text⟩ : ∃ log c, Told "f" log c ∧
      Telling.last? "owner" log = some (.str "bob") ∧
      (c.database.formulas.row? "f").map FormulaRow.text = some "(series \"t\")" :=
    ⟨_, _, untold.foldl events (by simp [events, Event.Spares]), by decide +kernel, by decide +kernel⟩
  obtain ⟨row, stored, ⟨-, w, field, -, same⟩ | ⟨overlaid, -⟩⟩ := supplied_metadata told last
  · rw [stored] at text
    exact ⟨log, c, row, told, last, stored, Option.some.inj text, same trivial ▸ field⟩
  · exact absurd overlaid.1 (by decide)

/-- Once the formula is registered again without a key that series tell, what the caller supplied is gone. -/
theorem supplied_metadata_overlaid : ∃ (log : List Telling) (c : Shared) (row : FormulaRow), Told "f" log c ∧
    Telling.last? "tzaware" log = some (.str "UTC") ∧ c.database.formulas.row? "f" = some row ∧
    ∃ aware, row.metadata.field? "tzaware" = some (.bool aware) := by
  let given : Json := .obj [("tzaware", .str "UTC")]
  let events : List Event := [.join {} {},
    .command 0 (.register "f" "(series \"s\")" { metadata := some given, rejectUnknown := false }),
    .command 0 (.register "f" "(series \"s\")" { rejectUnknown := false, update := true })]
  have untold : Told "f" [] start := .none rfl
  obtain ⟨log, c, told, last, overlaid⟩ : ∃ log c, Told "f" log c ∧
      Telling.last? "tzaware" log = some (.str "UTC") ∧ Telling.Overlaid "tzaware" log :=
    ⟨_, _, untold.foldl events (by simp [events, Event.Spares]), by decide +kernel, by decide, by decide +kernel⟩
  have noted : log ≠ [] := by
    rintro rfl
    cases last
  obtain ⟨row, fields, stored, same, shows⟩ := told.shows noted
  rcases shows "tzaware" _ last with ⟨-, m, field⟩ | ⟨kept, -⟩
  · exact ⟨log, c, row, told, last, stored, m.timezoneAware, by rw [same]; exact field⟩
  · exact absurd overlaid kept

end Shared

end SeriesLang
