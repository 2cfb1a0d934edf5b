import Packrat.Proofs.Matching

/-!
# What the chart is held to

A condition on outcomes that the invariant of a session asks of everything stored for a clause at a
position carries over from evaluating the clause to matching it through the chart.

* `Holds` — the invariant's side: what is stored satisfies the condition, and what satisfies it can be
  stored.
* `growSeed_holds`, **`matchThrough_holds`** — growing a match and matching through the chart.
-/

namespace Packrat

/-- **Whether an invariant holds the cell of a clause at a position to a condition.** -/
structure Holds (ctx : Context) (I : Session → Prop) (Q : Outcome → Prop) (id : ClauseId)
    (pos : Nat) : Prop where
  /-- What an evaluation does beside matching does not matter. -/
  stable : Stable ctx I
  /-- What is stored satisfies the condition. -/
  stored : ∀ {s outcome}, I s → (s.cellAt id pos).result = some outcome → Q outcome
  /-- What satisfies the condition can be stored. -/
  withCell : ∀ {s cell}, I s → (∀ outcome, cell.result = some outcome → Q outcome) →
    I (s.withCell id pos cell)
  /-- What is no match satisfies the condition. -/
  of_not_isMatch : ∀ {outcome}, outcome.isMatch = false → Q outcome
  /-- Marking does not matter. -/
  markGrown : ∀ {outcome}, Q outcome → Q outcome.markGrown

section chart

variable {ctx : Context} {I : Session → Prop} {Q : Outcome → Prop} {id : ClauseId} {pos : Nat}
  {evaluation : MatchM Outcome} {phase : Phase}

namespace Holds

variable (h : Holds ctx I Q id pos) (hpos : pos ≤ ctx.input.size)
include h

/-- Storing a cell. -/
theorem setCell {cell : Cell} (hcell : ∀ outcome, cell.result = some outcome → Q outcome) :
    Ensures True I (Session.setCell id pos cell) fun _ => True :=
  .change fun _ hs => h.withCell hs hcell

include hpos

/-- The position has a column. -/
theorem lt_width {s : Session} (hs : I s) : pos < s.width := by
  rw [h.stable.width hs]
  omega

/-- Reading the cell. -/
theorem cell : Ensures True I (Session.cell id pos) fun cell =>
    ∀ outcome, cell.result = some outcome → Q outcome :=
  .of_run fun s hs => ⟨_, s, Session.run_cell (h.lt_width hpos hs), hs, fun _ => h.stored hs⟩

/-- Reading the version. -/
theorem version : Ensures True I (Session.version pos) fun _ => True :=
  .of_run fun s hs => ⟨_, s, Session.run_version (h.lt_width hpos hs), hs, trivial⟩

/-- Making the position stale. -/
theorem bump : Ensures True I (Session.bump pos) fun _ => True :=
  .of_run fun _ hs =>
    ⟨_, _, Session.run_bump (h.lt_width hpos hs), h.stable.bumped hpos hs, trivial⟩

end Holds

/-- Growing a match: every round stores what the evaluation gives, or nothing. -/
theorem growSeed_holds (h : Holds ctx I Q id pos) (hpos : pos ≤ ctx.input.size)
    (heval : Ensures True I evaluation Q) : ∀ fuel : Nat,
    Ensures True I (growSeed evaluation id pos fuel) fun _ => True
  | 0 => .throw trivial
  | fuel + 1 => by
    rw [growSeed]
    refine .bind (h.stable.tally _).of_total fun _ _ => .bind heval fun outcome houtcome => ?_
    have hstore : ∀ {cell : Cell}, cell.result = some outcome →
        Ensures True I (Session.setCell id pos cell) fun _ => True := by
      intro cell hresult
      refine h.setCell fun other hother => ?_
      rw [hresult] at hother
      cases hother
      exact houtcome
    refine .bind (h.cell hpos) fun cell _ => ?_
    split
    · exact .pure trivial
    · split
      · exact hstore rfl
      · have hgrown : ∀ version, Ensures True I (storeGrown id pos cell outcome version)
            fun _ => True := fun version =>
          .bind (hstore rfl) fun _ _ => .bind (h.stable.tally _).of_total fun _ _ =>
            (h.stable.note _).of_total
        exact .bind (h.bump hpos) fun version _ => .bind (hgrown version) fun _ _ =>
          growSeed_holds h hpos heval fuel

/-- **Matching through the chart** gives what satisfies the condition if evaluating does. -/
theorem matchThrough_holds (h : Holds ctx I Q id pos) (hpos : pos ≤ ctx.input.size)
    (heval : Ensures True I evaluation Q) :
    Ensures True I (matchThrough ctx evaluation phase id pos) Q := by
  unfold matchThrough
  refine .bind (h.version hpos) fun version _ => .bind (h.cell hpos) fun cell hcell => ?_
  split
  · rename_i outcome hreuse
    exact .bind (h.stable.tally _).of_total fun _ _ =>
      .pure (hcell outcome (Cell.reusable?_eq_some hreuse))
  · split
    · unfold reenter
      split
      · rename_i node hresult
        exact .pure (hcell _ hresult)
      · exact .pure (h.of_not_isMatch rfl)
      · refine .bind (h.setCell ?_) fun _ _ => .pure (h.of_not_isMatch rfl)
        rintro _ ⟨⟩
        exact h.of_not_isMatch rfl
    · refine .bind (h.setCell fun outcome hentered => hcell outcome (Cell.result_enter hentered))
        fun _ _ => .bind (growSeed_holds h hpos heval _) fun _ _ => ?_
      refine .bind (h.cell hpos) fun grown hgrown => .bind (h.version hpos) fun now _ => ?_
      have hleft : ∀ outcome, (grown.leave phase now).result = some outcome → Q outcome := by
        intro outcome houtcome
        obtain ⟨old, hold, rfl⟩ := Option.map_eq_some_iff.1 houtcome
        split
        · exact h.markGrown (hgrown old hold)
        · exact hgrown old hold
      refine .bind (h.setCell hleft) fun _ _ => .pure ?_
      cases hresult : (grown.leave phase now).result with
      | none => exact h.of_not_isMatch rfl
      | some outcome => exact hleft outcome hresult

end chart

end Packrat
