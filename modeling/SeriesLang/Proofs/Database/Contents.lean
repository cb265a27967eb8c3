import SeriesLang.Proofs.Database.Writes

/-! # Contents apart from the epoch

No write looks at the epoch but one that expects a certain one. So databases that differ in nothing but the
epoch stay so, whatever is written to both of them, and give the same ids.
-/

namespace SeriesLang.Database

/-- Databases that differ in nothing but the epoch. -/
structure SameContents (db db' : Database) : Prop where
  formulas : db'.formulas = db.formulas
  groups : db'.groups = db.groups
  bindings : db'.bindings = db.bindings
  settings : ∀ key, key ≠ epochKey → db'.setting? key = db.setting? key

variable {db db' db'' : Database}

namespace SameContents

theorem refl (db : Database) : db.SameContents db :=
  ⟨rfl, rfl, rfl, fun _ _ => rfl⟩

theorem symm (h : db.SameContents db') : db'.SameContents db :=
  ⟨h.formulas.symm, h.groups.symm, h.bindings.symm, fun key apart => (h.settings key apart).symm⟩

theorem trans (h : db.SameContents db') (h' : db'.SameContents db'') : db.SameContents db'' :=
  ⟨h'.formulas.trans h.formulas, h'.groups.trans h.groups, h'.bindings.trans h.bindings,
    fun key apart => (h'.settings key apart).trans (h.settings key apart)⟩

theorem eq (h : db.SameContents db') : db' = { db with settings := db'.settings } := by
  obtain ⟨settings, formulas, groups, bindings⟩ := db
  obtain ⟨settings', _, _, _⟩ := db'
  obtain ⟨rfl, rfl, rfl, -⟩ := h
  rfl

theorem setEpoch (db : Database) (epoch : Int) : db.SameContents (db.setEpoch epoch) :=
  ⟨rfl, rfl, rfl, fun _ apart => Sorted.get?_put_of_ne (fun same => apart same.symm) _ _⟩

theorem bumpEpoch (h : db.SameContents db') : db.bumpEpoch.SameContents db'.bumpEpoch :=
  (setEpoch db _).symm.trans (h.trans (setEpoch db' _))

theorem setSetting (h : db.SameContents db') (key value : String) :
    (db.setSetting key value).SameContents (db'.setSetting key value) := by
  refine ⟨h.formulas, h.groups, h.bindings, fun other apart => ?_⟩
  simp only [setting?, Database.setSetting, Sorted.get?_put]
  split
  · rfl
  · exact h.settings other apart

/-- What neither looks at the settings nor changes them. -/
theorem map (h : db.SameContents db') (f : Database → Database)
    (blind : ∀ settings, f { db with settings } = { f db with settings })
    (leaves : (f db).settings = db.settings) : (f db).SameContents (f db') := by
  have same : f db' = { f db with settings := db'.settings } := by
    rw [← blind, ← h.eq]
  rw [same]
  refine ⟨rfl, rfl, rfl, fun key apart => ?_⟩
  have kept := h.settings key apart
  unfold setting? at kept ⊢
  rw [leaves]
  exact kept

end SameContents

theorem setNeedsAll_blind (needs : List (String × List String)) (db : Database)
    (settings : List (String × String)) :
    ({ db with settings } : Database).setNeedsAll needs = { db.setNeedsAll needs with settings } := by
  induction needs generalizing db with
  | nil => rfl
  | cons p needs ih => exact ih (db.setNeeds p.1 p.2)

theorem replaceAll_blind (writes : List FormulaWrite) (db : Database)
    (settings : List (String × String)) :
    writes.foldl replaceFormula { db with settings } =
      { writes.foldl replaceFormula db with settings } := by
  induction writes generalizing db with
  | nil => rfl
  | cons w writes ih => exact ih (db.replaceFormula w)

/-- Calls that fail alike, or give results that are alike. -/
inductive SameOutcome {α : Type} (R : α → α → Prop) : Except Error α → Except Error α → Prop
  | ok {a a'} (h : R a a') : SameOutcome R (.ok a) (.ok a')
  | error (e : Error) : SameOutcome R (.error e) (.error e)

/-- The same answer, and databases that differ in nothing but the epoch. -/
def SameAnswer {α : Type} : Except Error (α × Database) → Except Error (α × Database) → Prop :=
  SameOutcome fun p q => p.1 = q.1 ∧ p.2.SameContents q.2

namespace SameOutcome

variable {α β : Type} {R : α → α → Prop} {S : β → β → Prop} {r r' : Except Error α}

theorem map (h : SameOutcome R r r') {f : α → β} (alike : ∀ {a a'}, R a a' → S (f a) (f a')) :
    SameOutcome S (r.map f) (r'.map f) := by
  cases h with
  | ok h => exact .ok (alike h)
  | error e => exact .error e

/-- What comes after the same answer. -/
theorem bind {r : Except Error α} {f f' : α → Except Error β}
    (rest : ∀ a, SameOutcome S (f a) (f' a)) : SameOutcome S (r.bind f) (r.bind f') := by
  cases r with
  | ok a => exact rest a
  | error e => exact .error e

theorem ite {c : Prop} [Decidable c] {q q' : Except Error α} (yes : SameOutcome R q q')
    (no : SameOutcome R r r') : SameOutcome R (if c then q else r) (if c then q' else r') := by
  split
  · exact yes
  · exact no

end SameOutcome

namespace SameContents

theorem orKept (h : db.SameContents db') {r r' : Except Error Database}
    (same : SameOutcome SameContents r r') : (db.orKept r).SameContents (db'.orKept r') := by
  cases same with
  | ok h => exact h
  | error e => exact h

theorem registered (h : db.SameContents db') (w : FormulaWrite) (refreshed : List (String × List String)) :
    (db.registered w refreshed).SameContents (db'.registered w refreshed) :=
  bumpEpoch (h.map (fun db => (db.putFormula w).setNeedsAll refreshed)
    (setNeedsAll_blind refreshed (db.putFormula w)) (setNeedsAll_settings refreshed (db.putFormula w)))

theorem writeFormula (h : db.SameContents db') (w : FormulaWrite) (update : Bool)
    (refreshed : List (String × List String)) :
    SameAnswer (db.writeFormula w update refreshed none) (db'.writeFormula w update refreshed none) := by
  have written := h.registered w refreshed
  show SameAnswer (if _ then _ else _) (if _ then _ else _)
  rw [h.formulas]
  exact .ite (.error _) (.ok ⟨rfl, written⟩)

theorem replaceFormulas (h : db.SameContents db') (writes : List FormulaWrite) :
    (db.replaceFormulas writes).2.SameContents (db'.replaceFormulas writes).2 := by
  unfold Database.replaceFormulas
  rw [h.formulas]
  exact bumpEpoch (h.map (List.foldl replaceFormula · _) (replaceAll_blind _ db) (replaceAll_settings _ db))

theorem deleteFormula (h : db.SameContents db') (name : String) :
    (db.deleteFormula name).2.SameContents (db'.deleteFormula name).2 := by
  unfold Database.deleteFormula
  rw [h.formulas]
  cases db.formulas.id? name with
  | none => exact h
  | some id => exact bumpEpoch ⟨rfl, h.groups, h.bindings, h.settings⟩

theorem setMetadata (h : db.SameContents db') (name : String) (json : Json) :
    (db.setMetadata name json).2.SameContents (db'.setMetadata name json).2 := by
  unfold Database.setMetadata
  rw [h.formulas]
  exact bumpEpoch ⟨rfl, h.groups, h.bindings, h.settings⟩

theorem restore (db db' backup : Database) : (db.restore backup).SameContents (db'.restore backup) :=
  (setEpoch backup _).symm.trans (setEpoch backup _)

theorem stamp (h : db.SameContents db') : SameOutcome SameContents db.stamp db'.stamp := by
  have layout : db'.layout = db.layout := by
    unfold Database.layout
    rw [h.settings layoutKey (by decide)]
  unfold Database.stamp
  rw [layout]
  exact .ite (.error _) (.ite (.ok h) (.ok (h.setSetting _ _)))

theorem writeGroup (h : db.SameContents db') (name : String) (row : GroupRow) (update : Bool) :
    SameAnswer (db.writeGroup name row update) (db'.writeGroup name row update) := by
  unfold Database.writeGroup
  rw [h.groups]
  exact .ite (.error _) (.ok ⟨rfl, h.formulas, rfl, h.bindings, h.settings⟩)

theorem writeBinding (h : db.SameContents db') (name : String) (row : BindingRow) (update : Bool) :
    SameAnswer (db.writeBinding name row update) (db'.writeBinding name row update) := by
  unfold Database.writeBinding
  rw [h.groups, h.bindings]
  exact .ite (.error _) (.ite (.error _) (.ok ⟨rfl, h.formulas, rfl, rfl, h.settings⟩))

theorem renameGroup (h : db.SameContents db') (old new : String) :
    SameOutcome SameContents (db.renameGroup old new) (db'.renameGroup old new) := by
  unfold Database.renameGroup
  rw [h.groups, h.bindings]
  exact .ite (.error _) (.ite (.error _) (.ok ⟨h.formulas, rfl, rfl, h.settings⟩))

theorem deleteGroup (h : db.SameContents db') (name : String) :
    (db.deleteGroup name).2.SameContents (db'.deleteGroup name).2 := by
  unfold Database.deleteGroup
  rw [h.groups, h.bindings]
  split
  · exact ⟨h.formulas, rfl, rfl, h.settings⟩
  · exact h

theorem deleteBinding (h : db.SameContents db') (name : String) :
    (db.deleteBinding name).2.SameContents (db'.deleteBinding name).2 := by
  unfold Database.deleteBinding
  rw [h.bindings]
  exact ⟨h.formulas, h.groups, rfl, h.settings⟩

end SameContents

/-- A write that expects no epoch. One that is made in the epoch that it expects is the same. -/
def Write.Free : Write → Prop
  | .formula _ _ _ resolvedAt => resolvedAt = none
  | _ => True

theorem writeFormula_free (db : Database) (w : FormulaWrite) (update : Bool)
    (refreshed : List (String × List String)) :
    db.writeFormula w update refreshed (some db.epoch) = db.writeFormula w update refreshed none := by
  simp only [writeFormula, checkEpoch, if_pos]

/-- Databases that differ in nothing but the epoch differ in nothing else after the same write. -/
theorem Write.sameContents (w : Write) (free : w.Free) (h : db.SameContents db') :
    (w.run db).SameContents (w.run db') := by
  cases w with
  | formula w update refreshed resolvedAt =>
      cases free
      exact .orKept h ((h.writeFormula w update refreshed).map And.right)
  | replace writes => exact h.replaceFormulas writes
  | delete name => exact h.deleteFormula name
  | metadata name json => exact h.setMetadata name json
  | bump => exact h.bumpEpoch
  | restore backup =>
      cases backup with
      | none => exact h
      | some backup => exact .restore db db' backup
  | setting key value apart => exact h.setSetting key value
  | stamp => exact .orKept h h.stamp
  | group name row update => exact .orKept h ((h.writeGroup name row update).map And.right)
  | deleteGroup name => exact h.deleteGroup name
  | renameGroup old new => exact .orKept h (h.renameGroup old new)
  | binding name row update => exact .orKept h ((h.writeBinding name row update).map And.right)
  | deleteBinding name => exact h.deleteBinding name

/-- However many writes are made. -/
theorem writes_sameContents (ws : List Write) (free : ∀ w ∈ ws, w.Free) (h : db.SameContents db') :
    (ws.foldl Write.run db).SameContents (ws.foldl Write.run db') := by
  induction ws generalizing db db' with
  | nil => exact h
  | cons w ws ih =>
      obtain ⟨first, others⟩ := List.forall_mem_cons.1 free
      exact ih others (w.sameContents first h)

end SeriesLang.Database
