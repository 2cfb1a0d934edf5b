import Packrat.Proofs.DelimitedParses
import Packrat.Proofs.Texts

/-!
# Literals through the chart

A literal consults no other clause, so a lookup of it gives what the input has, in both phases and
whatever else the chart holds.

* `Session.Spells` — the chart has a column for each position and holds literals as they stand.
* `Literate` — the invariants that hold the cells of all literals to the input.
* **`Literate.matchClause`** — matching a literal.
-/

namespace Packrat

/-! ## What the chart holds -/

/-- Whether the chart of a session fits the input and holds literals as they stand. -/
structure Session.Spells (ctx : Context) (s : Session) : Prop where
  /-- There is a column for each position. -/
  width : s.width = ctx.input.size + 1
  /-- Literals are stored as they stand. -/
  texts : ∀ {id pos text}, ctx.grammar.clause? id = some (.literal text) →
    (s.cellAt id pos).HoldsText ctx text id pos

namespace Session.Spells

variable {ctx : Context} {s t : Session} {id : ClauseId} {pos : Nat}

/-- Every position of the input has a column. -/
theorem lt_width (h : s.Spells ctx) (hpos : pos ≤ ctx.input.size) : pos < s.width := by
  rw [h.width]
  omega

/-- Only the shape and the cells of a chart matter. -/
theorem of_cells (h : s.Spells ctx) (hwidth : t.width = s.width)
    (hcell : ∀ id pos, t.cellAt id pos = s.cellAt id pos) : t.Spells ctx where
  width := by rw [hwidth, h.width]
  texts := by
    intro other place text hother
    rw [hcell]
    exact h.texts hother

/-- Storing a literal as it stands, or another clause. -/
theorem withCell (h : s.Spells ctx) (hpos : pos ≤ ctx.input.size) {cell : Cell}
    (htext : ∀ text, ctx.grammar.clause? id = some (.literal text) →
      cell.HoldsText ctx text id pos) :
    (s.withCell id pos cell).Spells ctx where
  width := by rw [width_withCell, h.width]
  texts := by
    intro other place text hother
    rw [cellAt_withCell (h.lt_width hpos)]
    split
    · rename_i heq
      obtain ⟨rfl, rfl⟩ := heq
      exact htext text hother
    · exact h.texts hother

/-- Before anything was tried the chart is empty. -/
theorem start (ctx : Context) {work : Option Work} :
    (Session.start ctx.input.size work).Spells ctx where
  width := width_start _
  texts := by
    intro other place text _
    rw [cellAt_start]
    exact ⟨rfl, rfl, nofun⟩

end Session.Spells

/-! ## Lookups -/

/-- **Whether an invariant holds the cells of all literals to the input**, and nothing else keeps them
from being looked up. -/
structure Literate (ctx : Context) (I : Session → Prop) : Prop where
  /-- What an evaluation does beside matching does not matter. -/
  stable : Stable ctx I
  /-- Literals are stored as they stand. -/
  texts : ∀ {s id pos text}, I s → ctx.grammar.clause? id = some (.literal text) →
    (s.cellAt id pos).HoldsText ctx text id pos
  /-- Literals can be stored as they stand. -/
  withCell : ∀ {s id pos text cell}, I s → ctx.grammar.clause? id = some (.literal text) →
    pos ≤ ctx.input.size → cell.HoldsText ctx text id pos → I (s.withCell id pos cell)
  /-- Only the shape, the versions and the cells of a chart matter. -/
  of_agrees : ∀ {s t}, I s → s.Agrees t → I t

/-- **Matching a literal** gives what the input has. -/
theorem Literate.matchClause {ctx : Context} {I : Session → Prop} (h : Literate ctx I) {id : ClauseId}
    {text : List Char} (hid : ctx.grammar.clause? id = some (.literal text)) {pos : Nat}
    (hpos : pos ≤ ctx.input.size) (depth : Nat) (phase : Phase) (bound : Option ClauseId) :
    Ensures False I (matchClause ctx (depth + 1) phase id pos bound)
      (· = textOutcome ctx text id pos) := by
  rw [matchClause_succ, matchWith_of_clause hpos hid]
  refine .of_run fun s hs => ?_
  have hlt : pos < s.width := by
    rw [h.stable.width hs]
    omega
  obtain ⟨left, t, hleft, hagrees, hrun⟩ := matchThrough_known hlt (h.texts hs hid)
  exact ⟨_, t, hrun, h.of_agrees (h.withCell hs hid hpos hleft) hagrees, rfl⟩

end Packrat
