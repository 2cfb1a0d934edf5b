import Packrat.Proofs.Growth
import Packrat.Proofs.Readings

/-!
# The chart while nested matches grow

While a left-recursive rule is grown at one position, its steps and bases may come back to it at
others. What the chart holds then is said relative to the positions at which the rule is being grown.

* `LeftRule.Kept`, `LeftRule.Rested` — nothing has happened to the rule at a position; the rule has not
  been tried there, or has been grown to the end.
* **`Session.Reading`** — the invariant: a cell holds at most what its clause reads, or its clause is
  under evaluation; the rule rests at all positions but those at which it is being grown, and there
  nothing happens to it from further inside.
* `Session.Reading.entered`, `left`, `withOwn`, `bumpedOwn`, `grow`, `rest` — what keeps it.
-/

namespace Packrat

namespace LeftRule

variable {rule : LeftRule} {g : Grammar} {step : Step}

/-- A step belongs to its rule. -/
theorem owns_step (hstep : step ∈ rule.steps) : rule.Owns step.id :=
  .inr (List.find?_isSome.2 ⟨step, hstep, beq_self_eq_true step.id⟩)

/-- A step is found by its index. -/
theorem step?_eq (hform : g.LeftRecursive rule.top rule.steps rule.bases)
    (hstep : step ∈ rule.steps) : rule.step? step.id = some step := by
  cases hfound : rule.step? step.id with
  | none => exact absurd hstep (by simpa using List.find?_eq_none.1 hfound step)
  | some other =>
    have hid : other.id = step.id := by simpa using List.find?_some hfound
    rw [hform.step_eq hstep (List.mem_of_find?_eq_some hfound) hid]

/-! ## The rule at a position -/

/-- Whether nothing has happened to the rule at a position between two sessions. -/
structure Kept (rule : LeftRule) (pos : Nat) (s t : Session) : Prop where
  /-- The position has not been made stale. -/
  version : t.versionAt pos = s.versionAt pos
  /-- The cells of the rule are as they were. -/
  cell : ∀ {id}, rule.Owns id → t.cellAt id pos = s.cellAt id pos

/-- Whether the rule has not been tried at a position, or has been grown there to the end. -/
inductive Rested (ctx : Context) (rule : LeftRule) (pos : Nat) (s : Session) : Prop where
  | untried : s.versionAt pos = 0 → (∀ id, rule.Owns id → s.cellAt id pos = {}) →
      Rested ctx rule pos s
  | read {outcome : Outcome} : Reads ctx rule rule.top pos outcome →
      s.cellAt rule.top pos =
        { result := some outcome, leftRecursive := true, version := s.versionAt pos } →
      Rested ctx rule pos s

variable {ctx : Context} {pos place : Nat} {s t u : Session} {id : ClauseId}

/-- Nothing has happened. -/
theorem Kept.refl (s : Session) : rule.Kept pos s s := ⟨rfl, fun _ => rfl⟩

/-- Nothing has happened, and then nothing. -/
theorem Kept.trans (h : rule.Kept pos s t) (h' : rule.Kept pos t u) : rule.Kept pos s u :=
  ⟨h'.version.trans h.version, fun howns => (h'.cell howns).trans (h.cell howns)⟩

/-- Only the versions and the cells of a chart matter. -/
theorem Kept.of_agrees (h : s.Agrees t) : rule.Kept pos s t :=
  ⟨h.version pos, fun _ => h.cell _ pos⟩

/-- Storing a cell elsewhere, or that of another clause. -/
theorem Kept.withCell {cell : Cell} (hlt : pos < s.width) (hother : ¬rule.Owns id ∨ place ≠ pos) :
    rule.Kept place s (s.withCell id pos cell) := by
  refine ⟨Session.versionAt_withCell hlt, fun {other} howns => ?_⟩
  rw [Session.cellAt_withCell hlt, if_neg]
  rintro ⟨rfl, rfl⟩
  exact hother.elim (fun h => h howns) (fun h => h rfl)

/-- Making another position stale. -/
theorem Kept.bumped (hlt : pos < s.width) (hne : place ≠ pos) :
    rule.Kept place s (s.bumped pos) := by
  refine ⟨?_, fun _ => Session.cellAt_bumped hlt⟩
  rw [Session.versionAt_bumped hlt, if_neg hne]

/-- The rule rests as long as nothing happens to it. -/
theorem Rested.of_kept (h : rule.Rested ctx pos s) (hkept : rule.Kept pos s t) :
    rule.Rested ctx pos t := by
  cases h with
  | untried hversion hcells =>
    refine .untried (hkept.version.trans hversion) fun id howns => ?_
    rw [hkept.cell howns, hcells id howns]
  | read hreads hcell =>
    refine .read hreads ?_
    rw [hkept.cell (.inl rfl), hkept.version, hcell]

end LeftRule

/-- One more position. -/
def Also (growing : Nat → Prop) (pos : Nat) : Nat → Prop := fun place => growing place ∨ place = pos

/-- A position at which the rule is being grown is not one at which it is not. -/
theorem ne_of_growing {growing : Nat → Prop} {place pos : Nat} (h : growing place)
    (hnot : ¬growing pos) : place ≠ pos := by
  rintro rfl
  exact hnot h

/-! ## The invariant -/

/-- **The invariant of a chart that readings go through**, since it was that of the session `base`,
while the cells of `busy` are under evaluation and the rule is grown at the positions of `growing`. -/
structure Session.Reading (ctx : Context) (rule : LeftRule) (base : Session)
    (busy : ClauseId → Nat → Prop) (growing : Nat → Prop) (s : Session) : Prop where
  /-- There is a column for each position. -/
  width : s.width = ctx.input.size + 1
  /-- The cells under evaluation are those of other clauses. -/
  foreign : ∀ {id pos}, busy id pos → ¬rule.Owns id
  /-- A cell under evaluation is empty; in particular, it has not been looked up. -/
  underway : ∀ {id pos}, busy id pos → ∃ version, s.cellAt id pos = { active := true, version }
  /-- The cell of another clause that reads something holds at most that. -/
  settled : ∀ {id pos outcome}, ¬busy id pos → ¬rule.Owns id → Reads ctx rule id pos outcome →
    ∃ result version, s.cellAt id pos = { result, version } ∧ Yields result (Reads ctx rule id pos)
  /-- Where the rule is grown nothing happens to it. -/
  kept : ∀ {pos}, growing pos → rule.Kept pos base s
  /-- Everywhere else it rests. -/
  rested : ∀ {pos}, ¬growing pos → rule.Rested ctx pos s

namespace Session.Reading

variable {ctx : Context} {rule : LeftRule} {base s t : Session} {busy : ClauseId → Nat → Prop}
  {growing : Nat → Prop} {id : ClauseId} {pos : Nat}

/-- Every position of the input has a column. -/
theorem lt_width (h : Reading ctx rule base busy growing s) (hpos : pos ≤ ctx.input.size) :
    pos < s.width := by
  rw [h.width]
  omega

/-- Only the shape, the versions and the cells of a chart matter. -/
theorem of_agrees (h : Reading ctx rule base busy growing s) (hagrees : s.Agrees t) :
    Reading ctx rule base busy growing t where
  width := by rw [hagrees.width, h.width]
  foreign := h.foreign
  underway := by
    intro other place hbusy
    rw [hagrees.cell]
    exact h.underway hbusy
  settled := by
    intro other place outcome hbusy howns hreads
    rw [hagrees.cell]
    exact h.settled hbusy howns hreads
  kept hgrowing := (h.kept hgrowing).trans (.of_agrees hagrees)
  rested hgrowing := (h.rested hgrowing).of_kept (.of_agrees hagrees)

/-- Events and counters do not matter. -/
theorem of_chart_eq (h : Reading ctx rule base busy growing s) (heq : t.chart = s.chart) :
    Reading ctx rule base busy growing t := h.of_agrees (.of_chart_eq heq)

/-- Before anything was tried the chart is empty. -/
theorem start (ctx : Context) (rule : LeftRule) (base : Session) :
    Reading ctx rule base Nowhere (fun _ => False) (Session.start ctx.input.size) where
  width := width_start _
  foreign := False.elim
  underway := False.elim
  settled := by
    intro other place outcome _ _ _
    refine ⟨none, 0, cellAt_start _, ?_⟩
    intro outcome houtcome
    cases houtcome
  kept := False.elim
  rested := by
    intro place _
    refine .untried ?_ fun other _ => cellAt_start _
    rw [versionAt, columnAt_start]

/-- The same invariant since the chart was as it is. -/
theorem rebase (h : Reading ctx rule base busy growing s) : Reading ctx rule s busy growing s :=
  { h with kept := fun _ => .refl s }

/-- Another clause comes under evaluation. -/
theorem entered (h : Reading ctx rule base busy growing s) (hpos : pos ≤ ctx.input.size)
    (howns : ¬rule.Owns id) (version : Nat) :
    Reading ctx rule base (Entering busy id pos) growing
      (s.withCell id pos { active := true, version }) where
  width := by rw [width_withCell, h.width]
  foreign := by
    rintro other place (hbusy | ⟨rfl, rfl⟩)
    · exact h.foreign hbusy
    · exact howns
  underway := by
    intro other place hbusy
    rw [cellAt_withCell (h.lt_width hpos)]
    split
    · exact ⟨version, rfl⟩
    · rename_i hne
      exact h.underway (hbusy.resolve_right hne)
  settled := by
    intro other place outcome hbusy hother hreads
    rw [cellAt_withCell (h.lt_width hpos), if_neg fun heq => hbusy (.inr heq)]
    exact h.settled (fun hstill => hbusy (.inl hstill)) hother hreads
  kept hgrowing := (h.kept hgrowing).trans (.withCell (h.lt_width hpos) (.inl howns))
  rested hgrowing := (h.rested hgrowing).of_kept (.withCell (h.lt_width hpos) (.inl howns))

/-- A clause under evaluation gets its outcome. -/
theorem left (h : Reading ctx rule base (Entering busy id pos) growing s)
    (hpos : pos ≤ ctx.input.size) (howns : ¬rule.Owns id) (hfree : ¬busy id pos) {outcome : Outcome}
    (hreads : Reads ctx rule id pos outcome) (version : Nat) :
    Reading ctx rule base busy growing (s.withCell id pos { result := some outcome, version }) where
  width := by rw [width_withCell, h.width]
  foreign hbusy := h.foreign (.inl hbusy)
  underway := by
    intro other place hbusy
    have hne : ¬(other = id ∧ place = pos) := by
      rintro ⟨rfl, rfl⟩
      exact hfree hbusy
    rw [cellAt_withCell (h.lt_width hpos), if_neg hne]
    exact h.underway (.inl hbusy)
  settled := by
    intro other place outcome' hbusy hother hreads'
    rw [cellAt_withCell (h.lt_width hpos)]
    split
    · rename_i heq
      obtain ⟨rfl, rfl⟩ := heq
      exact ⟨_, version, rfl, Yields.pure hreads⟩
    · rename_i hne
      exact h.settled (fun hstill => hstill.elim hbusy hne) hother hreads'
  kept hgrowing := (h.kept hgrowing).trans (.withCell (h.lt_width hpos) (.inl howns))
  rested hgrowing := (h.rested hgrowing).of_kept (.withCell (h.lt_width hpos) (.inl howns))

/-- Storing a cell of the rule where it is grown. -/
theorem withOwn (h : Reading ctx rule s busy growing s) (hpos : pos ≤ ctx.input.size)
    (hgrowing : growing pos) (howns : rule.Owns id) (cell : Cell) :
    Reading ctx rule (s.withCell id pos cell) busy growing (s.withCell id pos cell) where
  width := by rw [width_withCell, h.width]
  foreign := h.foreign
  underway := by
    intro other place hbusy
    have hne : ¬(other = id ∧ place = pos) := by
      rintro ⟨rfl, rfl⟩
      exact h.foreign hbusy howns
    rw [cellAt_withCell (h.lt_width hpos), if_neg hne]
    exact h.underway hbusy
  settled := by
    intro other place outcome hbusy hother hreads
    have hne : ¬(other = id ∧ place = pos) := by
      rintro ⟨rfl, rfl⟩
      exact hother howns
    rw [cellAt_withCell (h.lt_width hpos), if_neg hne]
    exact h.settled hbusy hother hreads
  kept _ := .refl _
  rested := by
    intro place hrests
    have hne : pos ≠ place := ne_of_growing hgrowing hrests
    exact (h.rested hrests).of_kept (.withCell (h.lt_width hpos) (.inr hne.symm))

/-- Making a position stale where the rule is grown. -/
theorem bumpedOwn (h : Reading ctx rule s busy growing s) (hpos : pos ≤ ctx.input.size)
    (hgrowing : growing pos) : Reading ctx rule (s.bumped pos) busy growing (s.bumped pos) where
  width := by rw [width_bumped, h.width]
  foreign := h.foreign
  underway := by
    intro other place hbusy
    rw [cellAt_bumped (h.lt_width hpos)]
    exact h.underway hbusy
  settled := by
    intro other place outcome hbusy hother hreads
    rw [cellAt_bumped (h.lt_width hpos)]
    exact h.settled hbusy hother hreads
  kept _ := .refl _
  rested := by
    intro place hrests
    have hne : pos ≠ place := ne_of_growing hgrowing hrests
    exact (h.rested hrests).of_kept (.bumped (h.lt_width hpos) hne.symm)

/-- The rule begins to grow at a position. -/
theorem grow (h : Reading ctx rule base busy growing s) (pos : Nat) :
    Reading ctx rule s busy (Also growing pos) s :=
  { h.rebase with
    kept := fun _ => .refl s
    rested := fun hrests => h.rested fun hgrowing => hrests (.inl hgrowing) }

/-- The growth of the rule at a position ends. -/
theorem rest (h : Reading ctx rule s busy (Also growing pos) s)
    (houter : ∀ {place}, growing place → rule.Kept place base s) (hrested : rule.Rested ctx pos s) :
    Reading ctx rule base busy growing s :=
  { h with
    kept := houter
    rested := by
      intro place hgrowing
      by_cases hpos : place = pos
      · rwa [hpos]
      · exact h.rested fun hstill => hstill.elim hgrowing hpos }

end Session.Reading

end Packrat
