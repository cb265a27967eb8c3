import SeriesLang.Proofs.Database.Links
import SeriesLang.Proofs.Engine.Sharing

/-! # Needs along a run

Whatever engines do to a database, its needs stand at stored formulas and lead to the formulas that now
have the needed names. So a deletion finds all needs that lead to the formula.
-/

namespace SeriesLang

namespace Engine

variable {name : String} {s t : Session}

theorem delete_true (h : delete name s = (.ok true, t)) : ∃ id,
    s.database.formulas.id? name = some id ∧ t.database = (s.database.deleteFormula name).2 := by
  have removed : (s.database.deleteFormula name).1 = true := Except.ok.inj (congrArg Prod.fst h)
  have left : t = s.written (s.database.deleteFormula name).2 := (congrArg Prod.snd h).symm
  cases hid : s.database.formulas.id? name with
  | none =>
      simp only [Database.deleteFormula, hid] at removed
      cases removed
  | some id => exact ⟨id, rfl, congrArg Session.database left⟩

end Engine

namespace Shared

variable {r : Registry} {c : Shared} {n : Nat}

/-- In every state of a run of engines that share a database, each need stands at a stored formula and leads
    to the formula that has the needed name, or to none if there is none. To delete a formula takes away
    its own needs and those of its name, and leaves all others. Epochs must not run out where there are
    several engines. -/
theorem edges_linked (h : Reachable r n c) (room : c.engines.length ≤ 1 ∨ n < 2 ^ 63 - 1) :
    (∀ edge ∈ c.database.edges, (∃ name, c.database.formulas.id? name = some edge.source) ∧
      edge.target = c.database.formulas.id? edge.need) ∧
    ∀ engine ∈ c.engines, ∀ name t, Engine.delete name ⟨engine, c.database⟩ = (.ok true, t) →
      ∃ id, c.database.formulas.id? name = some id ∧ t.database.edges =
        c.database.edges.filter (fun edge => edge.source ≠ id ∧ edge.need ≠ name) := by
  have linked : c.database.Linked := (h.lasting (Database.Linked.lasts r) .create room).1
  refine ⟨fun edge hedge => linked.edges hedge, fun engine _ name t deleted => ?_⟩
  obtain ⟨id, hid, left⟩ := Engine.delete_true deleted
  exact ⟨id, hid, left ▸ linked.edges_deleteFormula hid⟩

/-- One engine registers a formula that another one needs already, and the other engine deletes it. -/
theorem edges_linked_deleted : ∃ (c : Shared) (engine : Engine) (t : Session), Reachable .builtin 2 c ∧
    c.engines.length = 2 ∧ engine ∈ c.engines ∧
    Engine.delete "base" ⟨engine, c.database⟩ = (.ok true, t) ∧
    c.database.edges = [⟨2, "late", none⟩, ⟨1, "base", some 2⟩, ⟨1, "late", none⟩] ∧
    t.database.edges = [⟨1, "late", none⟩] ∧
    (∀ edge ∈ c.database.edges, (∃ name, c.database.formulas.id? name = some edge.source) ∧
      edge.target = c.database.formulas.id? edge.need) ∧
    ∃ id, c.database.formulas.id? "base" = some id ∧ t.database.edges =
      c.database.edges.filter (fun edge => edge.source ≠ id ∧ edge.need ≠ "base") := by
  obtain ⟨c, engine, t, reached, two, mem, deleted, before, after⟩ : ∃ (c : Shared) (engine : Engine)
      (t : Session), Reachable .builtin 2 c ∧ c.engines.length = 2 ∧ engine ∈ c.engines ∧
      Engine.delete "base" ⟨engine, c.database⟩ = (.ok true, t) ∧
      c.database.edges = [⟨2, "late", none⟩, ⟨1, "base", some 2⟩, ⟨1, "late", none⟩] ∧
      t.database.edges = [⟨1, "late", none⟩] := by
    have engines : Reachable .builtin 0 _ := (Reachable.start.join {} {}).join {} {}
    have first := engines.step 0
      (.register "sum" "(+ 1 (series \"base\"))" { rejectUnknown := false })
    have second := first.step 1 (.register "base" "(series \"late\")" { rejectUnknown := false })
    exact ⟨_, _, _, second, by decide +kernel, List.head_mem (by decide +kernel),
      Action.run_of_fst (by decide +kernel), by decide +kernel, by decide +kernel⟩
  obtain ⟨linked, deletes⟩ := edges_linked reached (.inr (by decide))
  exact ⟨c, engine, t, reached, two, mem, deleted, before, after, linked, deletes engine mem _ t deleted⟩

end Shared

end SeriesLang
