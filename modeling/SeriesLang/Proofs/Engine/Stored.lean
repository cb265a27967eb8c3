import SeriesLang.Proofs.Database.Stored
import SeriesLang.Proofs.Engine.Sharing

/-! # Stored rows along a run

Whatever engines do to a database, each row of it stays in step with its text.
-/

namespace SeriesLang.Shared

variable {r : Registry} {c : Shared} {n : Nat}

/-- In every state of a run of engines that share a database, the text of each stored formula reads as a
    tree that passes the checks of the operators, and the hash of its row is the hash of this tree. Epochs
    must not run out where there are several engines. -/
theorem rows_in_step (h : Reachable r n c) (room : c.engines.length ≤ 1 ∨ n < 2 ^ 63 - 1) :
    ∀ name row, c.database.formulas.row? name = some row → ∃ e, Expr.ofText row.text = .ok e ∧
      r.checkTree e = .ok () ∧ row.hash = e.contentHash := by
  have inStep : c.database.InStep r := (h.lasting (Database.InStep.lasts r) .create room).1
  exact fun name row hrow => inStep.rows hrow

/-- A name that needs escapes takes the place of one that was written as a symbol. The formula on top of it
    is written again for its needs and keeps its text. -/
theorem rows_in_step_renamed : ∃ c, Reachable .builtin 3 c ∧ c.engines.length = 2 ∧
    (c.database.formulas.row? "sum").map FormulaRow.text =
      some "(+ 1 (series \"a\\\"\\n;b\" #:fill 0))" ∧
    (c.database.formulas.row? "twice").map FormulaRow.text = some "(* 2  (series sum))" ∧
    ∀ name row, c.database.formulas.row? name = some row → ∃ e, Expr.ofText row.text = .ok e ∧
      Registry.builtin.checkTree e = .ok () ∧ row.hash = e.contentHash := by
  have engines : Reachable .builtin 0 _ := (Reachable.start.join {} {}).join {} {}
  have first := engines.step 0
    (.register "sum" "(+ 1 (series base #:fill 0))" { rejectUnknown := false })
  have second := first.step 1 (.register "twice" "(* 2  (series sum))" { rejectUnknown := false })
  have third := second.step 0 (.rename "base" "a\"\n;b")
  exact ⟨_, third, by decide +kernel, by decide +kernel, by decide +kernel,
    rows_in_step third (.inr (by decide))⟩

end SeriesLang.Shared
