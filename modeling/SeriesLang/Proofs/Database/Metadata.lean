import SeriesLang.Engine.Register
import SeriesLang.Proofs.Database.Writes
import SeriesLang.Proofs.Json.Reading

/-! # Metadata of formulas

The metadata of a formula is made of layers: what its series tell is laid over what is stored, and what the
caller gives over both. What a caller has told of a formula so far therefore says what is stored of it, key by key.
-/

namespace SeriesLang

namespace Json

/-- The value that the fields of an object give a key; of several fields of that name the last counts. -/
def supplied? (json : Json) (key : String) : Option Json :=
  Sorted.get? key (Sorted.putAll json.fields [])

/-- What is merged into an object is laid over its fields. -/
theorem merge_obj {base : List (String × Json)} (h : Sorted.Ascending base) (top : Json) :
    ∃ fields, (obj base).merge top = .obj fields ∧ Sorted.Ascending fields ∧
      ∀ key, Sorted.get? key fields = (top.supplied? key).or (Sorted.get? key base) := by
  cases top with
  | obj top => exact ⟨_, rfl, h.putAll top, Sorted.get?_putAll_top top base⟩
  | null | bool | int | float | str | arr => exact ⟨base, rfl, h, fun _ => rfl⟩

end Json

/-- The keys that are known of every series. -/
def SeriesMeta.keys : List String :=
  ["index_type", "tzaware", "value_type"]

theorem SeriesMeta.field?_toJson (m : SeriesMeta) (key : String) :
    m.toJson.field? key = m.toJson.supplied? key := by
  have ascending : Sorted.Ascending ([] ++ m.toJson.fields) := Sorted.Ascending.putAll .nil _
  rw [Json.supplied?, Sorted.putAll_of_ascending ascending, List.nil_append, Json.field?]

/-- What is known of a series are plain values for these keys. -/
theorem SeriesMeta.supplied?_toJson (m : SeriesMeta) (key : String) :
    if key ∈ keys then ∃ v, m.toJson.supplied? key = some v ∧ v.Plain else m.toJson.supplied? key = none := by
  have fields : m.toJson.supplied? key = Sorted.get? key [("index_type", .str m.indexType),
      ("tzaware", .bool m.timezoneAware), ("value_type", .str m.valueType)] := rfl
  simp only [fields, Sorted.get?_cons, keys]
  split
  · rename_i known
    simp only [List.mem_cons, List.not_mem_nil, or_false] at known
    rcases known with rfl | rfl | rfl
    · exact ⟨_, rfl, trivial⟩
    · exact ⟨_, rfl, trivial⟩
    · exact ⟨_, rfl, trivial⟩
  · rename_i unknown
    simp only [List.mem_cons, List.not_mem_nil, or_false, not_or] at unknown
    obtain ⟨first, second, third⟩ := unknown
    rw [if_neg fun same => first same.symm, if_neg fun same => second same.symm,
      if_neg fun same => third same.symm, Sorted.get?_nil]

/-- A registration lays what the series tell over what is stored, and what the caller gives over both. -/
theorem Registration.metadata_obj {stored : Option Json} {base : List (String × Json)}
    (known : stored.getD (.obj []) = .obj base) (h : Sorted.Ascending base) (m : SeriesMeta)
    (given : Option Json) : ∃ fields, metadata stored m given = .obj fields ∧ Sorted.Ascending fields ∧
      ∀ key, Sorted.get? key fields =
        (given.bind (·.supplied? key)).or ((m.toJson.supplied? key).or (Sorted.get? key base)) := by
  have below : metadata stored m none = (Json.obj base).merge m.toJson := by
    cases stored with
    | none =>
        cases known
        rfl
    | some json =>
        have same : json = .obj base := known
        rw [same]
        rfl
  obtain ⟨middle, derived, sorted, layers⟩ := Json.merge_obj h m.toJson
  rw [derived] at below
  cases given with
  | none => exact ⟨middle, below, sorted, layers⟩
  | some json =>
      have above : metadata stored m (some json) = (metadata stored m none).merge json := rfl
      obtain ⟨fields, merged, order, tops⟩ := Json.merge_obj sorted json
      refine ⟨fields, by rw [above, below, merged], order, fun key => ?_⟩
      rw [tops, layers]
      rfl

/-- What a caller tells of a formula: with its text, whereupon its series are asked once more, or apart from it. -/
inductive Telling where
  | registered (given : Option Json)
  | merged (json : Json)

namespace Telling

variable {key : String} {log : List Telling} {found : Option Json}

/-- The value that a key is supplied with. -/
def supplied? (key : String) : Telling → Option Json
  | registered given => given.bind (·.supplied? key)
  | merged json => json.supplied? key

/-- Are the series asked once more? -/
def asks : Telling → Bool
  | registered _ => true
  | merged _ => false

/-- The value that a key was supplied with last. What was told last stands first. -/
def last? (key : String) (log : List Telling) : Option Json :=
  log.findSome? (supplied? key)

/-- Have the series been asked for the key since it was supplied last? -/
def Overlaid (key : String) (log : List Telling) : Prop :=
  key ∈ SeriesMeta.keys ∧ (log.takeWhile fun t => (t.supplied? key).isNone).any asks = true

/-- A key that was supplied still has the last value, which may have been read back a few times, or it has what the
    series told since then. -/
def Shows (key : String) (log : List Telling) (found : Option Json) : Prop :=
  ∀ v, last? key log = some v →
    (Overlaid key log ∧ ∃ m : SeriesMeta, found = m.toJson.supplied? key) ∨
      (¬Overlaid key log ∧ ∃ w, found = some w ∧ v.Reread w)

theorem not_overlaid_of_supplied {t : Telling} {v : Json} (h : t.supplied? key = some v) :
    ¬Overlaid key (t :: log) := by
  rintro ⟨-, asked⟩
  rw [List.takeWhile_cons_of_neg (by simp [h])] at asked
  cases asked

theorem overlaid_of_unsupplied {t : Telling} (h : t.supplied? key = none) :
    Overlaid key (t :: log) ↔ (key ∈ SeriesMeta.keys ∧ t.asks = true) ∨ Overlaid key log := by
  rw [Overlaid, Overlaid, List.takeWhile_cons_of_pos (by simp [h]), List.any_cons, Bool.or_eq_true, and_or_left]

theorem last?_of_unsupplied {t : Telling} (h : t.supplied? key = none) : last? key (t :: log) = last? key log := by
  rw [last?, List.findSome?_cons, h]
  rfl

theorem Shows.supplied {t : Telling} {v : Json} (h : t.supplied? key = some v) :
    Shows key (t :: log) (some v) := by
  intro w last
  rw [last?, List.findSome?_cons, h] at last
  cases last
  exact .inr ⟨not_overlaid_of_supplied h, v, rfl, .refl⟩

/-- What is merged is laid over what is stored. -/
theorem Shows.merged (h : Shows key log found) (json : Json) :
    Shows key (merged json :: log) ((json.supplied? key).or found) := by
  cases given : json.supplied? key with
  | some v => exact .supplied given
  | none =>
      intro v last
      have absent : Telling.supplied? key (Telling.merged json) = none := given
      rw [last?_of_unsupplied absent] at last
      rw [overlaid_of_unsupplied absent, Option.none_or]
      simpa [asks] using h v last

/-- The layers of a registration. -/
theorem Shows.registered (h : Shows key log found) (m : SeriesMeta) (given : Option Json) :
    Shows key (registered given :: log)
      ((given.bind (·.supplied? key)).or ((m.toJson.supplied? key).or found)) := by
  cases top : given.bind (·.supplied? key) with
  | some v => exact .supplied top
  | none =>
      intro v last
      have absent : Telling.supplied? key (Telling.registered given) = none := top
      have told := m.supplied?_toJson key
      rw [last?_of_unsupplied absent] at last
      rw [overlaid_of_unsupplied absent, Option.none_or]
      split at told
      · rename_i known
        obtain ⟨w, told, -⟩ := told
        exact .inl ⟨.inl ⟨known, rfl⟩, m, by rw [told, Option.some_or]⟩
      · rename_i unknown
        rw [told, Option.none_or]
        simpa [asks, unknown] using h v last

/-- What is stored of it is read back. -/
theorem Shows.reread {again : Option Json} (h : Shows key log found)
    (back : ∀ {v}, found = some v → ∃ w, again = some w ∧ v.Reread w) : Shows key log again := by
  intro v last
  rcases h v last with ⟨overlaid, m, rfl⟩ | ⟨kept, w, rfl, once⟩
  · have told := m.supplied?_toJson key
    rw [if_pos overlaid.1] at told
    obtain ⟨u, told, plain⟩ := told
    obtain ⟨w, same, more⟩ := back told
    exact .inl ⟨overlaid, m, by rw [same, told, more.eq plain]⟩
  · obtain ⟨u, same, more⟩ := back rfl
    exact .inr ⟨kept, u, same, once.trans more⟩

/-- The metadata is an object that shows every key. -/
def Records (log : List Telling) (json : Json) : Prop :=
  ∃ fields, json = .obj fields ∧ Sorted.Ascending fields ∧ ∀ key, Shows key log (Sorted.get? key fields)

theorem Records.merged {stored : Json} (h : Records log stored) (json : Json) :
    Records (merged json :: log) (stored.merge json).kept := by
  obtain ⟨base, rfl, ascending, shows⟩ := h
  obtain ⟨fields, same, sorted, layers⟩ := Json.merge_obj ascending json
  obtain ⟨found, kept, order, back⟩ := Json.kept_obj sorted
  refine ⟨found, same ▸ kept, order, fun key => ?_⟩
  exact ((shows key).merged json).reread fun known => back ((layers key).trans known)

/-- Of a formula that is not stored nothing was told. -/
inductive Records? : List Telling → Option Json → Prop
  | absent : Records? [] none
  | stored {log json} (h : Records log json) : Records? log (some json)

theorem Records?.registered {stored : Option Json} (h : Records? log stored) (m : SeriesMeta)
    (given : Option Json) :
    Records? (registered given :: log) (some (Registration.metadata stored m given).kept) := by
  obtain ⟨base, known, ascending, shows⟩ : ∃ base, stored.getD (.obj []) = .obj base ∧
      Sorted.Ascending base ∧ ∀ key, Shows key log (Sorted.get? key base) := by
    cases h with
    | absent => exact ⟨[], rfl, .nil, fun _ => nofun⟩
    | stored h => exact h
  obtain ⟨fields, same, sorted, layers⟩ := Registration.metadata_obj known ascending m given
  obtain ⟨found, kept, order, back⟩ := Json.kept_obj sorted
  refine .stored ⟨found, same ▸ kept, order, fun key => ?_⟩
  exact ((shows key).registered m given).reread fun known => back ((layers key).trans known)

end Telling

namespace Database

variable {db : Database} {name : String}

/-- The metadata of a stored formula. -/
def metadata? (db : Database) (name : String) : Option Json :=
  (db.formulas.row? name).map FormulaRow.metadata

theorem isSome_metadata? (db : Database) (name : String) :
    (db.metadata? name).isSome = db.formulas.contains name := by
  rw [metadata?, Table.row?, Option.isSome_map, Option.isSome_map, Table.contains]

theorem metadata?_setNeeds (db : Database) (other : String) (needs : List String) :
    (db.setNeeds other needs).metadata? name = db.metadata? name := by
  rw [metadata?, setNeeds, Table.row?_modify, metadata?]
  split
  · cases db.formulas.row? name <;> rfl
  · rfl

theorem metadata?_setNeedsAll (needs : List (String × List String)) (db : Database) :
    (db.setNeedsAll needs).metadata? name = db.metadata? name := by
  induction needs generalizing db with
  | nil => rfl
  | cons p needs ih => exact (ih _).trans (metadata?_setNeeds db p.1 p.2)

theorem metadata?_registered (db : Database) (w : FormulaWrite) (refreshed : List (String × List String)) :
    (db.registered w refreshed).metadata? name =
      if w.name = name then some (db.metadataFor w) else db.metadata? name := by
  refine (metadata?_setNeedsAll refreshed (db.putFormula w)).trans ?_
  rw [putFormula, metadata?_setNeeds, metadata?, Table.row?_write]
  split <;> rfl

theorem metadata?_replaceFormula (db : Database) {w : FormulaWrite} (untold : w.name = name → w.metadata = none) :
    (db.replaceFormula w).metadata? name = db.metadata? name := by
  rw [replaceFormula, metadata?_setNeeds, metadata?, Table.row?_modify, metadata?]
  split
  · rename_i same
    rw [untold same.symm]
    cases db.formulas.row? name <;> rfl
  · rfl

theorem metadata?_replaceFormulas (db : Database) {writes : List FormulaWrite}
    (untold : ∀ w ∈ writes, w.name = name → w.metadata = none) :
    (db.replaceFormulas writes).2.metadata? name = db.metadata? name := by
  have replaced (writes : List FormulaWrite) (untold : ∀ w ∈ writes, w.name = name → w.metadata = none)
      (db : Database) : (writes.foldl replaceFormula db).metadata? name = db.metadata? name := by
    induction writes generalizing db with
    | nil => rfl
    | cons w writes ih =>
        obtain ⟨first, others⟩ := List.forall_mem_cons.1 untold
        exact (ih others _).trans (metadata?_replaceFormula db first)
  exact replaced _ (fun w mem => untold w (List.mem_of_mem_filter mem)) db

theorem metadata?_deleteFormula (db : Database) (other : String) :
    (db.deleteFormula other).2.metadata? name = if name = other then none else db.metadata? name := by
  cases known : db.formulas.id? other with
  | none =>
      rw [deleteFormula_of_none known]
      split
      · rename_i same
        rw [metadata?, same, Table.row?_eq_none_iff.2 known, Option.map_none]
      · rfl
  | some id =>
      rw [metadata?, deleteFormula_row? known]
      split
      · rfl
      · rw [Option.map_map]
        rfl

theorem metadata?_setMetadata (db : Database) (other : String) (json : Json) :
    (db.setMetadata other json).2.metadata? name =
      if name = other then (db.metadata? name).map (fun _ => json.kept) else db.metadata? name := by
  rw [metadata?, setMetadata_row?, metadata?]
  split <;> cases db.formulas.row? name <;> rfl

/-- Writes that leave the metadata of a formula alone. -/
def Write.Spares (name : String) : Write → Prop
  | .formula w _ _ _ => w.name ≠ name
  | .replace writes => ∀ w ∈ writes, w.name = name → w.metadata = none
  | .delete other => other ≠ name
  | .metadata other _ => other ≠ name
  | .restore _ => False
  | .bump | .setting .. | .stamp | .group .. | .deleteGroup _ | .renameGroup .. | .binding ..
  | .deleteBinding _ => True

theorem metadata?_orKept {r : Except Error Database} (h : ∀ db', r = .ok db' → db'.metadata? name = db.metadata? name) :
    (db.orKept r).metadata? name = db.metadata? name :=
  orKept_of (P := fun db' => db'.metadata? name = db.metadata? name) rfl h

theorem Write.Spares.metadata? {w : Write} (h : w.Spares name) (db : Database) :
    (w.run db).metadata? name = db.metadata? name := by
  cases w with
  | formula w update refreshed resolvedAt =>
      refine metadata?_orKept fun db' mapped => ?_
      obtain ⟨⟨id, _⟩, written, rfl⟩ := ok_of_map mapped
      rw [writeFormula_ok written]
      exact (metadata?_registered db w refreshed).trans (if_neg h)
  | replace writes => exact metadata?_replaceFormulas db h
  | delete other => exact (metadata?_deleteFormula db other).trans (if_neg fun same => h same.symm)
  | metadata other json => exact (metadata?_setMetadata db other json).trans (if_neg fun same => h same.symm)
  | restore => exact h.elim
  | bump => rfl
  | setting key value apart => rfl
  | stamp =>
      refine metadata?_orKept fun db' stamped => ?_
      obtain ⟨-, stamped⟩ := ok_of_else stamped
      split at stamped <;> cases stamped <;> rfl
  | group other row update =>
      refine metadata?_orKept fun db' mapped => ?_
      obtain ⟨_, written, rfl⟩ := ok_of_map mapped
      cases (ok_of_else written).2
      rfl
  | deleteGroup other =>
      rw [run, Database.deleteGroup]
      split <;> rfl
  | renameGroup old new =>
      refine metadata?_orKept fun db' written => ?_
      cases (ok_of_else (ok_of_else written).2).2
      rfl
  | binding other row update =>
      refine metadata?_orKept fun db' mapped => ?_
      obtain ⟨_, written, rfl⟩ := ok_of_map mapped
      cases (ok_of_else (ok_of_else written).2).2
      rfl
  | deleteBinding other => rfl

end Database

end SeriesLang
