import Packrat.Proofs.Literals

/-!
# Parses whose outcome is known

The two phases of a parse whose top rule consults nothing but literals. If it is known what evaluating
its body gives in each phase, whatever the chart holds, then so is what the phases give: the second
replaces the outcome of the first unless that is as long.

* `Session.Keeps` — the invariant: literals are stored as they stand, and one cell is known.
* `growSeed_settles`, `matchThrough_settles` — a clause whose outcome is known, through a cell that does
  not answer.
* `Foreseen` — a clause whose outcome is known in both phases.
* **`Job.matchPhases_of_covers`**, **`Job.matchPhases_of_short`** — a parse that plain matching covers, and
  one that it does not.
-/

namespace Packrat

/-! ## The chart -/

/-- **The invariant of a session**: literals are stored as they stand, and the cell of one clause at the
start of the input is known. -/
structure Session.Keeps (ctx : Context) (top : ClauseId) (cell : Cell) (s : Session) : Prop
    extends Session.Spells ctx s where
  /-- The cell that is known. -/
  known : s.cellAt top 0 = cell

namespace Session.Keeps

variable {ctx : Context} {top : ClauseId} {clause : Clause} {cell : Cell} {s t : Session}

/-- The start of the input has a column. -/
theorem width_pos (h : s.Keeps ctx top cell) : 0 < s.width := h.toSpells.lt_width (Nat.zero_le _)

/-- Only the shape and the cells of a chart matter. -/
theorem of_cells (h : s.Keeps ctx top cell) (hwidth : t.width = s.width)
    (hcells : ∀ id pos, t.cellAt id pos = s.cellAt id pos) : t.Keeps ctx top cell where
  toSpells := h.toSpells.of_cells hwidth hcells
  known := by rw [hcells, h.known]

/-- What an evaluation does beside matching does not matter. -/
theorem stable : Stable ctx (Session.Keeps ctx top cell) where
  width h := h.width
  noted _ h := h.of_cells rfl fun _ _ => rfl
  tallied _ h := h.of_cells rfl fun _ _ => rfl
  bumped hpos h := h.of_cells width_bumped fun _ _ => cellAt_bumped (h.toSpells.lt_width hpos)

/-- Before anything was tried the cell is empty. -/
theorem start (ctx : Context) (top : ClauseId) {work : Option Work} :
    (Session.start ctx.input.size work).Keeps ctx top {} where
  toSpells := .start ctx
  known := cellAt_start _

variable (hclause : ctx.grammar.clause? top = some clause) (hterminal : clause.isTerminal = false)
include hclause hterminal

/-- Storing another cell for the clause, which is no literal. -/
theorem withCell (h : s.Keeps ctx top cell) (other : Cell) :
    (s.withCell top 0 other).Keeps ctx top other where
  toSpells := by
    refine h.toSpells.withCell (Nat.zero_le _) fun text htext => ?_
    cases htext.symm.trans hclause
    cases hterminal
  known := cellAt_withCell_self h.width_pos

/-- Literals are held to the input. -/
theorem literate : Literate ctx (Session.Keeps ctx top cell) where
  stable := stable
  texts h := h.texts
  withCell := by
    intro s id pos text other h hid hpos hother
    refine ⟨h.toSpells.withCell hpos fun text' hid' => ?_, ?_⟩
    · cases hid.symm.trans hid'
      exact hother
    · rw [cellAt_withCell (h.toSpells.lt_width hpos), if_neg, h.known]
      rintro ⟨rfl, -⟩
      cases hid.symm.trans hclause
      cases hterminal
  of_agrees h hagrees := h.of_cells hagrees.width hagrees.cell

end Session.Keeps

/-- Whether an outcome is what a cell holds after an evaluation that gave another one: that one, or what
it held before, if that is no shorter. -/
def Prevails (cell : Cell) (given final : Outcome) : Prop :=
  final = given ∨ cell.result = some final ∧ given.longerThan final = false

section chart

variable {ctx : Context} {top : ClauseId} {clause : Clause}
  (hclause : ctx.grammar.clause? top = some clause) (hterminal : clause.isTerminal = false)
  {cell : Cell} {outcome : Outcome} {evaluation : MatchM Outcome} {s : Session}
include hclause hterminal

/-- Growing the match of a clause that does not come back to itself: one round stores it, unless what is
there is no shorter. -/
theorem growSeed_settles (hdirect : cell.leftRecursive = false)
    (heval : Ensures False (Session.Keeps ctx top cell) evaluation (· = outcome))
    (hs : s.Keeps ctx top cell) (fuel : Nat) :
    ∃ final t, (growSeed evaluation top 0 (fuel + 1)).run s = .ok ((), t) ∧
      t.Keeps ctx top { cell with result := some final } ∧ Prevails cell outcome final := by
  obtain ⟨given, t, hrun, ht, hgiven⟩ := heval.run (Session.Keeps.stable.tallied
    (fun work => { work with evaluations := work.evaluations + 1 }) hs)
  rw [hgiven] at hrun
  have hlt : 0 < t.width := ht.width_pos
  rw [growSeed, Session.run_bind_of_ok Session.run_tally, Session.run_bind_of_ok hrun,
    Session.run_bind_of_ok (Session.run_cell hlt), ht.known]
  by_cases hkept : cell.result.any (!outcome.longerThan ·) = true
  · rw [if_pos hkept]
    obtain ⟨stored, hstored, hshorter⟩ := (Option.any_eq_true _ _).1 hkept
    have hsame : { cell with result := some stored } = cell := by rw [← hstored]
    refine ⟨stored, t, rfl, ?_, .inr ⟨hstored, by simpa using hshorter⟩⟩
    rw [hsame]
    exact ht
  · rw [if_neg hkept, hdirect]
    exact ⟨outcome, _, rfl, ht.withCell hclause hterminal _, .inl rfl⟩

/-- **Matching a clause whose outcome is known** through a cell that does not answer: the outcome that
prevails is given and stored. -/
theorem matchThrough_settles {phase : Phase} (hs : s.Keeps ctx top cell)
    (hreuse : cell.reusable? phase (s.versionAt 0) 0 ctx.input.size = none)
    (hinactive : cell.active = false) (hdirect : cell.leftRecursive = false)
    (heval : ∀ cell, Ensures False (Session.Keeps ctx top cell) evaluation (· = outcome)) :
    ∃ final t version, (matchThrough ctx evaluation phase top 0).run s = .ok (final, t) ∧
      t.Keeps ctx top { result := some final, version, phase } ∧ Prevails cell outcome final := by
  have hlt : 0 < s.width := hs.width_pos
  rw [matchThrough, Session.run_bind_of_ok (Session.run_version hlt),
    Session.run_bind_of_ok (Session.run_cell hlt), hs.known, hreuse]
  simp only [hinactive, Bool.false_eq_true, if_false]
  rw [Session.run_bind_of_ok Session.run_setCell]
  generalize hentered : cell.enter phase (s.versionAt 0) = entered
  have hdirect' : entered.leftRecursive = false := by
    rw [← hentered, Cell.enter]
    split <;> exact hdirect
  obtain ⟨final, t, hgrow, ht, hfinal⟩ := growSeed_settles hclause hterminal hdirect' (heval entered)
    (hs.withCell hclause hterminal entered) (ctx.input.size + 2)
  have hltt : 0 < t.width := ht.width_pos
  have hleave : ({ entered with result := some final } : Cell).leave phase (t.versionAt 0) =
      { result := some final, version := t.versionAt 0, phase } := by
    simp [Cell.leave, hdirect']
  rw [Session.run_bind_of_ok hgrow, Session.run_bind_of_ok (Session.run_cell hltt),
    Session.run_bind_of_ok (Session.run_version hltt), ht.known, hleave,
    Session.run_bind_of_ok Session.run_setCell]
  refine ⟨final, _, _, rfl, ht.withCell hclause hterminal _, hfinal.imp_right fun hstored => ?_⟩
  rw [← hentered] at hstored
  exact ⟨Cell.result_enter hstored.1, hstored.2⟩

end chart

/-- What plain matching has stored for a clause at the start does not answer a lookup in recovery,
unless it reaches the end of the input. -/
theorem Cell.reusable?_eq_none_of_short {outcome : Outcome} {version now inputLen : Nat}
    (h : ∀ node, outcome = .matched node → node.stop < inputLen) :
    ({ result := some outcome, version, phase := .discovery } : Cell).reusable? .recovery now 0
      inputLen = none := by
  cases outcome with
  | matched node =>
    have hshort := h node rfl
    cases hcomplete : node.isComplete <;>
      simp [reusable?, mustRetry, Outcome.isComplete, Outcome.node?, hcomplete, hshort]
  | mismatch | pending => simp [reusable?, Outcome.isComplete, Outcome.node?]

/-! ## Parses -/

/-- There is room for a clause that consults literals. -/
theorem Context.exists_depth (ctx : Context) : ∃ depth, ctx.depth = depth + 2 := by
  refine ⟨ctx.depth - 2, ?_⟩
  have hpositive : 0 < (ctx.grammar.clauses.size * (ctx.input.size + 1) + 1)
      * (ctx.grammar.clauses.size + 1) := Nat.mul_pos (Nat.succ_pos _) (Nat.succ_pos _)
  unfold Context.depth
  omega

/-- **Whether the outcome of a clause at the start of the input is known** in each phase, from what the
input has for literals alone. The clause is of a kind that consults others, and no reference. -/
def Foreseen (ctx : Context) (top : ClauseId) (outcome : Phase → Outcome) : Prop :=
  ∃ clause, ctx.grammar.clause? top = some clause ∧ clause.isTerminal = false ∧
    clause.isReference = false ∧
    ∀ {I : Session → Prop}, Literate ctx I → ∀ depth phase,
      Ensures False I (evaluate ctx (matchClause ctx (depth + 1)) phase top clause 0 none)
        (· = outcome phase)

namespace Job

/-- A match from the start on covers the input if it ends where the input does. -/
theorem covers_matched {job : Job} {node : Node} (hpos : node.pos = 0) :
    job.covers (.matched node) = decide (node.stop = job.input.size) := by
  simp [covers, Outcome.node?, Node.stop, hpos, Bool.beq_eq_decide_eq]

variable {job : Job} {outcome : Phase → Outcome} (h : Foreseen job.context job.top outcome)
include h

/-- Matching the top rule through a cell that does not answer. -/
theorem matchTop_foreseen (phase : Phase) {s : Session} {cell : Cell}
    (hs : s.Keeps job.context job.top cell)
    (hreuse : cell.reusable? phase (s.versionAt 0) 0 job.input.size = none)
    (hinactive : cell.active = false) (hdirect : cell.leftRecursive = false) :
    ∃ final t version, (job.matchTop phase).run s = .ok (final, t) ∧
      t.Keeps job.context job.top { result := some final, version, phase } ∧
      Prevails cell (outcome phase) final := by
  obtain ⟨clause, hclause, hterminal, hkind, heval⟩ := h
  obtain ⟨depth, hdepth⟩ := job.context.exists_depth
  rw [matchTop, hdepth, matchClause_succ, matchWith_of_clause (Nat.zero_le _) hclause, hkind,
    if_neg Bool.false_ne_true]
  exact matchThrough_settles hclause hterminal hs hreuse hinactive hdirect fun _ =>
    heval (Session.Keeps.literate hclause hterminal) depth phase

/-- The first phase. -/
theorem matchTop_opening : ∃ t version,
    (job.matchTop job.firstPhase).run job.opening = .ok (outcome .discovery, t) ∧
      t.Keeps job.context job.top { result := some (outcome .discovery), version } := by
  have hopening : job.opening.Keeps job.context job.top {} :=
    Session.Keeps.stable.noted _ (Session.Keeps.start job.context job.top)
  obtain ⟨final, t, version, hrun, ht, rfl | ⟨hnone, -⟩⟩ :=
    matchTop_foreseen h .discovery hopening rfl rfl rfl
  · exact ⟨t, version, hrun, ht⟩
  · cases hnone

/-- **A parse that plain matching covers.** -/
theorem matchPhases_of_covers (hcovers : job.covers (outcome .discovery) = true) :
    ∃ t, job.matchPhases.run job.start = .ok ((outcome .discovery, false), t) := by
  obtain ⟨t, version, hfirst, -⟩ := matchTop_opening h
  have hrun : job.matchPhases.run job.start = _ :=
    (Session.run_bind_of_ok Session.run_note).trans (Session.run_bind_of_ok hfirst)
  rw [hrun, hcovers]
  exact ⟨t, rfl⟩

/-- **A parse that plain matching does not cover**: the outcome of the second phase is given, or that of
the first, if the second one is no longer. -/
theorem matchPhases_of_short
    (hshort : ∀ node, outcome .discovery = .matched node → node.stop < job.input.size)
    (hrecovery : job.config.recovery = true) :
    ∃ final t, job.matchPhases.run job.start = .ok ((final, true), t) ∧
      (final = outcome .recovery ∨
        final = outcome .discovery ∧ (outcome .recovery).longerThan final = false) := by
  obtain ⟨t, version, hfirst, ht⟩ := matchTop_opening h
  have hcovers : job.covers (outcome .discovery) = false := by
    cases houtcome : outcome .discovery with
    | matched node =>
      have hstop := hshort node houtcome
      simp only [covers, Outcome.node?, Option.any_some, Bool.and_eq_false_iff, beq_eq_false_iff_ne]
      rw [Node.stop] at hstop
      omega
    | mismatch | pending => rfl
  obtain ⟨final, u, _, hsecond, -, hfinal⟩ := matchTop_foreseen h .recovery
    (Session.Keeps.stable.noted (.recovery job.topRule (outcome .discovery).len?) ht)
    (Cell.reusable?_eq_none_of_short hshort) rfl rfl
  refine ⟨final, u, matchPhases_repairs hfirst hcovers hrecovery hsecond, ?_⟩
  rcases hfinal with hgiven | ⟨hstored, hshorter⟩
  · exact .inl hgiven
  · exact .inr ⟨(Option.some.inj hstored).symm, hshorter⟩

end Job

end Packrat
