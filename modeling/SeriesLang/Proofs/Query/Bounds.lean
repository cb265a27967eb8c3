import SeriesLang.Proofs.Query.Scalars
import SeriesLang.Proofs.Series.Within
import SeriesLang.Proofs.Store.History

/-! # The end of a window

An expression has no points behind the window over which it is evaluated. What is read by name is cut to the
window, a constant fills no grid behind it, and no operator moves points to later instants.
-/

namespace SeriesLang

theorem Instant.min_le_right (a b : Instant) : min a b ≤ b := by
  show (if a ≤ b then a else b) ≤ b
  split
  · assumption
  · exact le_refl b

namespace Series

variable {K L : Instant → Prop} {s : Series}

theorem Within.mono (h : s.Within K) (weaker : ∀ t, K t → L t) : s.Within L :=
  fun p hp => weaker p.1 (h p hp)

theorem within_restrict (s : Series) (w : Window) : (s.restrict w).Within (fun t => w.contains t) :=
  fun _ hp => (List.mem_filter.1 hp).2

theorem Within.pruneLast (h : s.Within K) (count : Nat) : (s.pruneLast count).Within K :=
  fun p hp => h p (List.mem_of_mem_take hp)

end Series

namespace Operator

theorem Within.shaped {K : Instant → Prop} {s : Series} (h : s.Within K) (args : Arguments) :
    (shaped args s).Within K := by
  unfold Operator.shaped
  split
  · exact h.pruneLast _
  · exact h

/-- A grid is filled up to its end only. -/
theorem le_of_mem_gridFrom {f : Frequency} {last : Instant} {fuel : Nat} {start : Option Instant}
    {seen out : List Instant} {more : Bool} (h : gridFrom f last fuel start seen = .ok (out, more))
    (hseen : ∀ t ∈ seen, t ≤ last) : ∀ t ∈ out, t ≤ last := by
  induction fuel generalizing start seen with
  | zero => cases start <;> cases h <;> exact hseen
  | succ fuel ih =>
      cases start with
      | none =>
          cases h
          exact hseen
      | some t =>
          simp only [gridFrom] at h
          split at h
          · rename_i before
            split at h
            · apply ih h
              intro u hu
              rcases List.mem_cons.1 hu with rfl | hu
              · exact before
              · exact hseen u hu
            · cases h
          · cases h
            exact hseen

theorem within_constantOver {f : Frequency} {x : Float} {horizon : Window} {s : Series} {last : Instant}
    (bounded : horizon.upper = some last) (h : constantOver f x horizon = .ok s) :
    s.Within (· ≤ last) := by
  unfold constantOver at h
  split at h
  · rename_i first _ _ upper
    cases bounded.symm.trans upper
    obtain ⟨⟨grid, more⟩, generated, rfl⟩ := ok_of_map h
    obtain ⟨start, -, generated⟩ := ok_of_bind generated
    obtain ⟨⟨seen, _⟩, filled, generated⟩ := ok_of_bind generated
    cases generated
    apply Series.Within.ofPoints
    intro p hp
    obtain ⟨t, ht, rfl⟩ := List.mem_map.1 hp
    exact le_of_mem_gridFrom filled (by simp) t (List.mem_reverse.1 ht)
  · cases h
    exact fun p hp => by cases hp

theorem Made.within {args : Arguments} {context : Context} {s : Series} {u : Instant}
    (bounded : context.window.upper = some u) (h : Made args context s) : s.Within (· ≤ u) := by
  cases h with
  | early _ _ => exact fun p hp => by cases hp
  | @late _ _ _ _ lower upper _ _ _ _ _ _ _ _ filled =>
      have last : ((Window.between lower upper).intersect context.window).upper =
          some (min upper u) := by
        simp only [Window.intersect, Window.between, bounded, Window.tighter]
      exact (within_constantOver last filled).mono
        (fun t ht => Instant.le_trans ht (Instant.min_le_right upper u))

end Operator

namespace Env

variable {env : Env} {catalog : Catalog} {n levels levels' : Nat} {context context' : Context}
  {u : Instant}

theorem Fetches.within {name : String} {s : Series} (h : env.Fetches catalog n context name s) :
    s.Within (fun t => context.window.contains t) := by
  cases h with
  | leaf _ => exact Series.within_restrict _ _
  | formula _ _ _ => exact Series.within_restrict _ _
  | stored _ _ found =>
      obtain ⟨stored, -, rfl⟩ := Option.map_eq_some_iff.1 found
      exact fun p hp => StoredSeries.mem_read hp

/-- Of two evaluations of an expression, the first one has no point behind its window. -/
theorem Yields.related_within (builtin : env.registry = .builtin)
    (bounded : context.window.upper = some u) {e : Expr} (steady : e.Steady) {v v' : Value}
    (h : env.Yields catalog levels context e v) (h' : env.Yields catalog levels' context' e v') :
    Value.Related (fun s _ => s.Within (· ≤ u)) v v' := by
  have closed : Series.ClosedWhole (fun s _ => s.Within (· ≤ u)) :=
    Series.closedWhole_within (fun _ _ h k => Instant.le_trans k h)
  refine Yields.related (Q := fun c _ e => c.window.upper = some u ∧ e.Steady) ?_ ⟨bounded, steady⟩ h h'
  intro n n' context context' call v v' premise ih h h'
  obtain ⟨bounded, steady⟩ := premise
  have cut : ∀ {s : Series}, s.Within (fun t => context.window.contains t) → s.Within (· ≤ u) :=
    fun inside => inside.mono (fun t ht => Window.le_of_contains bounded ht)
  obtain ⟨_, o, found, -⟩ := h.call
  rcases steady_cases builtin steady.self found with rfl | rfl | rfl | ⟨run, plain⟩
  · obtain ⟨args, _, s, -, -, fetched, rfl⟩ := h.series found
    obtain ⟨_, _, _, -, -, -, rfl⟩ := h'.series found
    exact .series (Operator.Within.shaped (cut fetched.within) args)
  · obtain ⟨_, s, -, made, rfl⟩ := h.constant found
    obtain ⟨_, _, -, -, rfl⟩ := h'.constant found
    exact .series (made.within bounded)
  · obtain ⟨_, _, _, _, _, _, s, -, -, -, -, -, -, -, rfl⟩ := h.timeShifted found
    obtain ⟨_, _, _, _, _, _, _, -, -, -, -, -, -, -, rfl⟩ := h'.timeShifted found
    exact .series (cut (Series.within_restrict _ _))
  · obtain ⟨args, gathers, made⟩ := h.plain found plain
    obtain ⟨args', gathers', made'⟩ := h'.plain found plain
    have related := gathers.related gathers' plain.defaults
      (fun e he v v' h h' => ih ⟨bounded, steady.argument he⟩ h h')
    exact plain.whole closed args args' v v' related made made'

/-- No point of an expression lies behind the window. -/
theorem Yields.within (builtin : env.registry = .builtin) (bounded : context.window.upper = some u)
    {e : Expr} (steady : e.Steady) {s : Series} (h : env.Yields catalog levels context e (.series s)) :
    s.Within (· ≤ u) := by
  cases h.related_within builtin bounded steady h with
  | scalar scalar => cases scalar
  | series inside => exact inside

end Env

end SeriesLang
