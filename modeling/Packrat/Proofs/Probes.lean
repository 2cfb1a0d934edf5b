import Mathlib.Logic.Relation
import Packrat.Proofs.ErrorCounts

/-!
# Plain matching makes no errors

Repairs are made in the second phase only, so a match of the first phase holds no errors of its own.
It can still show errors that it did not make: both phases share the chart, and a lookup of the first
phase may be answered with a match that the second one stored. Probes are such lookups.

* `Grammar.Reaches` — the clauses that matching a clause may come to.
* `Closed` — a part of the chart that matching inside it never leaves.
* `evaluate_errors` — evaluating a clause in the first phase adds no errors to those of the clauses
  that it consults.
* **`Cell.Harmless`** — a cell out of which a plain lookup gets no errors: what it holds is free of
  them, or is dropped because it is stale, or because it is left recursive and of the other phase.
* `matchClause_errors` — plain matching in a harmless part of the chart gives no errors and leaves
  the part harmless.
* **`probe_errors_eq_zero`** — the same for a probe at a position, for which only the clauses that it
  may come to and the positions from there on matter.
* `probe_meets_stored_errors` — without that condition a probe can give errors.
-/

namespace Packrat

/-! ## Parts of the chart -/

/-- Whether matching the first clause consults the second one. -/
def Grammar.Consults (g : Grammar) (id child : ClauseId) : Prop :=
  ∃ clause, g.clause? id = some clause ∧ child ∈ clause.children

/-- Whether matching the first clause may come to the second one. -/
def Grammar.Reaches (g : Grammar) : ClauseId → ClauseId → Prop := Relation.ReflTransGen g.Consults

/-- Whether a part of the chart holds, with a clause at a position, all clauses that it consults at
that position and all later ones. -/
def Closed (ctx : Context) (cells : ClauseId → Nat → Prop) : Prop :=
  ∀ {id child pos place}, cells id pos → ctx.grammar.Consults id child → pos ≤ place →
    cells child place

/-- What a clause may come to from a position on. -/
def Onward (ctx : Context) (id : ClauseId) (pos : Nat) : ClauseId → Nat → Prop :=
  fun other place => ctx.grammar.Reaches id other ∧ pos ≤ place

/-- Matching a clause at a position does not leave what it may come to from there on. -/
theorem closed_onward (ctx : Context) (id : ClauseId) (pos : Nat) :
    Closed ctx (Onward ctx id pos) := by
  rintro other child here there ⟨hreaches, hle⟩ hconsults hlater
  exact ⟨hreaches.tail hconsults, Nat.le_trans hle hlater⟩

/-! ## Evaluating -/

namespace Node

/-- The errors of nodes in a row. -/
theorem totalErrors_cons (node : Node) (nodes : List Node) :
    totalErrors (node :: nodes) = node.errors + totalErrors nodes := rfl

/-- Wrapping one node adds no errors. -/
theorem errors_wrapOne (id : ClauseId) (child : Node) (complete : Bool) :
    (wrapOne id child complete).errors = child.errors := Nat.add_zero _

/-- Marking adds no errors. -/
theorem errors_markGrown (node : Node) : node.markGrown.errors = node.errors := by
  cases node <;> rfl

end Node

/-- Marking an outcome adds no errors. -/
theorem Outcome.errors_markGrown (outcome : Outcome) : outcome.markGrown.errors = outcome.errors := by
  cases outcome with
  | matched node => exact node.errors_markGrown
  | _ => rfl

section evaluation

variable {ctx : Context} {I : Session → Prop} {matcher : Matcher} {pos : Nat}

/-- Whether a clause gives no errors in the first phase, at a position and all later ones. -/
def Matcher.Errorless (I : Session → Prop) (matcher : Matcher) (id : ClauseId) (pos : Nat) : Prop :=
  ∀ place bound, pos ≤ place →
    Ensures True I (matcher .discovery id place bound) fun outcome => outcome.errors = 0

/-- Later positions are among all later ones. -/
theorem Matcher.Errorless.mono {id : ClauseId} {place : Nat} (h : matcher.Errorless I id pos)
    (hle : pos ≤ place) : matcher.Errorless I id place :=
  fun there bound hthere => h there bound (Nat.le_trans hle hthere)

/-- The elements of a sequence. -/
theorem evaluateElements_errors {id : ClauseId} {bound : Option ClauseId} :
    ∀ {elements : List ClauseId} {pos : Nat},
      (∀ element ∈ elements, matcher.Errorless I element pos) →
      Ensures True I (evaluateElements ctx matcher .discovery id bound elements pos)
        fun result => ∀ nodes, result = some nodes → Node.totalErrors nodes = 0
  | [], _, _ => .pure fun nodes hnodes => by
    cases hnodes
    rfl
  | element :: rest, pos, h => by
    rw [evaluateElements]
    refine .bind (h element List.mem_cons_self pos _ (Nat.le_refl pos)) fun outcome houtcome => ?_
    cases outcome with
    | matched node =>
      have hrest : ∀ other ∈ rest, matcher.Errorless I other (pos + node.len) :=
        fun other hother => (h other (List.mem_cons_of_mem _ hother)).mono (Nat.le_add_right _ _)
      refine .bind (evaluateElements_errors hrest) fun others hothers => .pure ?_
      intro nodes hnodes
      obtain ⟨tail, rfl, rfl⟩ := Option.map_eq_some_iff.1 hnodes
      have hnode : node.errors = 0 := houtcome
      rw [Node.totalErrors_cons, hnode, hothers tail rfl]
    | _ =>
      refine .pure fun nodes hnodes => ?_
      cases hnodes

/-- The alternatives of a choice. -/
theorem firstAlternative_errors {bound : Option ClauseId} : ∀ {alternatives : List ClauseId},
    (∀ alternative ∈ alternatives, matcher.Errorless I alternative pos) →
    Ensures True I (firstAlternative matcher .discovery pos bound alternatives)
      fun result => ∀ node, result = some node → node.errors = 0
  | [], _ => .pure nofun
  | alternative :: rest, h => by
    rw [firstAlternative]
    refine .bind (h alternative List.mem_cons_self pos _ (Nat.le_refl pos)) fun outcome houtcome => ?_
    cases outcome with
    | matched node =>
      refine .pure fun other hother => ?_
      cases hother
      exact houtcome
    | _ => exact firstAlternative_errors fun other hother => h other (List.mem_cons_of_mem _ hother)

/-- The iterations of a repetition. -/
theorem iterate_errors {id item : ClauseId} {bound : Option ClauseId} :
    ∀ {fuel pos : Nat} {repaired : Bool}, matcher.Errorless I item pos →
      Ensures True I (iterate ctx matcher .discovery id item bound fuel pos repaired)
        fun result => Node.totalErrors result.1 = 0
  | 0, _, _, _ => .throw trivial
  | fuel + 1, pos, repaired, h => by
    have hreached : boundReached matcher .discovery bound pos = pure false := rfl
    rw [iterate, hreached, pure_bind]
    split
    · exact .pure rfl
    refine .bind (h pos none (Nat.le_refl pos)) fun outcome houtcome => ?_
    cases outcome with
    | matched node =>
      show Ensures True I (if node.len = 0 then _ else _) _
      split
      · exact .pure rfl
      · refine .bind (iterate_errors (h.mono (Nat.le_add_right _ _))) fun result hresult => .pure ?_
        have hnode : node.errors = 0 := houtcome
        rw [Node.totalErrors_cons, hnode, hresult]
    | _ => exact .pure rfl

/-- One character. -/
theorem evaluateChar_errors (id : ClauseId) (accepts : Char → Bool) :
    (evaluateChar ctx id pos accepts).errors = 0 := by
  unfold evaluateChar
  split <;> rfl

/-- **Evaluating a clause in the first phase** gives no errors if the clauses that it consults give
none. -/
theorem evaluate_errors {id : ClauseId} {clause : Clause} {bound : Option ClauseId}
    (h : ∀ child ∈ clause.children, matcher.Errorless I child pos) :
    Ensures True I (evaluate ctx matcher .discovery id clause pos bound)
      fun outcome => outcome.errors = 0 := by
  cases clause with
  | literal text =>
    refine .pure ?_
    split <;> rfl
  | char c => exact .pure (evaluateChar_errors id _)
  | charClass ranges inverted => exact .pure (evaluateChar_errors id _)
  | anyChar => exact .pure (evaluateChar_errors id _)
  | empty => exact .pure rfl
  | seq elements =>
    refine .bind (evaluateElements_errors h) fun result hresult => ?_
    split
    · exact .pure rfl
    · exact .pure rfl
    · exact .pure (hresult _ rfl)
  | choice alternatives =>
    show Ensures True I (chooseAlternative matcher .discovery pos bound alternatives >>= _) _
    rw [chooseAlternative_discovery]
    refine .bind (firstAlternative_errors h) fun result hresult => ?_
    cases result with
    | none => exact .pure rfl
    | some node => exact .pure ((node.errors_wrapOne id _).trans (hresult node rfl))
  | repeated item atLeastOne =>
    refine .bind (iterate_errors (h item List.mem_cons_self)) fun result hresult => ?_
    obtain ⟨nodes, short⟩ := result
    cases nodes with
    | nil =>
      refine .pure ?_
      split <;> rfl
    | cons first rest => exact .pure hresult
  | optional item | reference name item =>
    refine .bind (h item List.mem_cons_self pos bound (Nat.le_refl pos)) fun outcome houtcome => ?_
    cases outcome with
    | matched node => exact .pure ((node.errors_wrapOne id _).trans houtcome)
    | _ => exact .pure rfl
  | ahead item | notAhead item =>
    refine .bind (h item List.mem_cons_self pos bound (Nat.le_refl pos)) fun outcome _ => ?_
    split <;> exact .pure rfl

end evaluation

/-! ## Harmless cells -/

/-- Whether a cell holds no errors. -/
def Cell.Errorless (cell : Cell) : Prop := ∀ outcome, cell.result = some outcome → outcome.errors = 0

/-- **Whether no plain lookup gets errors out of a cell** of a column at a version: the cell holds
none, or what it holds is dropped. -/
def Cell.Harmless (cell : Cell) (version : Nat) : Prop :=
  cell.Errorless ∨ cell.active = false ∧
    (cell.version < version ∨ cell.leftRecursive = true ∧ cell.phase = .recovery)

namespace Cell

variable {cell : Cell} {version pos inputLen : Nat}

/-- Nothing is dropped from a cell of the present version that a plain lookup reuses. -/
theorem Harmless.reusable (h : cell.Harmless version) {outcome : Outcome}
    (hreuse : cell.reusable? .discovery version pos inputLen = some outcome) :
    outcome.errors = 0 := by
  obtain ⟨hresult, hfilter⟩ := Option.filter_eq_some_iff.1 hreuse
  simp only [Bool.and_eq_true, Bool.or_eq_true, Bool.not_eq_true', beq_iff_eq] at hfilter
  obtain ⟨⟨hversion, -⟩, hserves⟩ := hfilter
  rcases h with herrorless | ⟨-, hstale | ⟨hrecursive, hphase⟩⟩
  · exact herrorless outcome hresult
  · omega
  · rcases hserves with ⟨-, hplain⟩ | hsame
    · rw [hrecursive] at hplain
      cases hplain
    · rw [hphase] at hsame
      cases hsame

/-- A cell under evaluation keeps what it holds. -/
theorem Harmless.of_active (h : cell.Harmless version) (hactive : cell.active = true) :
    cell.Errorless := by
  rcases h with herrorless | ⟨hinactive, -⟩
  · exact herrorless
  · rw [hactive] at hinactive
    cases hinactive

/-- Entering a cell drops its errors. -/
theorem Harmless.enter (h : cell.Harmless version) : (cell.enter .discovery version).Errorless := by
  unfold Cell.enter
  split
  · exact nofun
  · rename_i hkept
    simp only [Bool.or_eq_true, bne_iff_ne, ne_eq, Bool.and_eq_true, not_or, not_not, not_and]
      at hkept
    rcases h with herrorless | ⟨-, hstale | ⟨hrecursive, hphase⟩⟩
    · exact herrorless
    · omega
    · have hsame := hkept.2 hrecursive
      rw [hphase] at hsame
      cases hsame

/-- Leaving a cell adds no errors. -/
theorem Errorless.leave (h : cell.Errorless) (phase : Phase) (version : Nat) :
    (cell.leave phase version).Errorless := by
  intro outcome houtcome
  obtain ⟨old, hold, rfl⟩ := Option.map_eq_some_iff.1 houtcome
  split
  · rw [Outcome.errors_markGrown, h old hold]
  · exact h old hold

/-- The result of a cell without errors. -/
theorem Errorless.getD (h : cell.Errorless) : (cell.result.getD .mismatch).errors = 0 := by
  cases hresult : cell.result with
  | none => rfl
  | some outcome => exact h outcome hresult

end Cell

/-- **The invariant of plain matching** in a part of the chart: its cells are harmless, and those
that are under evaluation by it hold no errors. -/
structure Session.Harmless (ctx : Context) (cells entered : ClauseId → Nat → Prop) (s : Session) :
    Prop where
  /-- There is a column for each position. -/
  width : s.width = ctx.input.size + 1
  /-- No plain lookup gets errors out of the part. -/
  harmless : ∀ {id pos}, cells id pos → (s.cellAt id pos).Harmless (s.versionAt pos)
  /-- Entered cells hold no errors. -/
  errorless : ∀ {id pos}, entered id pos → (s.cellAt id pos).Errorless

namespace Session.Harmless

variable {ctx : Context} {cells entered : ClauseId → Nat → Prop} {s : Session} {id : ClauseId}
  {pos : Nat}

/-- Every position of the input has a column. -/
theorem lt_width (h : s.Harmless ctx cells entered) (hpos : pos ≤ ctx.input.size) :
    pos < s.width := by
  rw [h.width]
  omega

/-- Events and counters do not matter. -/
theorem of_chart_eq {t : Session} (h : s.Harmless ctx cells entered) (heq : t.chart = s.chart) :
    t.Harmless ctx cells entered := by
  obtain ⟨chart, work, trace⟩ := t
  subst heq
  exact ⟨h.width, h.harmless, h.errorless⟩

/-- Storing a cell without errors. -/
theorem withCell (h : s.Harmless ctx cells entered) (hpos : pos ≤ ctx.input.size) {cell : Cell}
    (hcell : cell.Errorless) :
    (s.withCell id pos cell).Harmless ctx cells (Entering entered id pos) where
  width := by rw [width_withCell, h.width]
  harmless := by
    intro other place hother
    rw [cellAt_withCell (h.lt_width hpos), versionAt_withCell (h.lt_width hpos)]
    split
    · exact .inl hcell
    · exact h.harmless hother
  errorless := by
    intro other place hother
    rw [cellAt_withCell (h.lt_width hpos)]
    split
    · exact hcell
    · rename_i hne
      exact h.errorless (hother.resolve_right hne)

/-- Making a position stale. -/
theorem bumped (h : s.Harmless ctx cells entered) (hpos : pos ≤ ctx.input.size) :
    (s.bumped pos).Harmless ctx cells entered where
  width := by rw [width_bumped, h.width]
  harmless := by
    intro other place hother
    rw [cellAt_bumped (h.lt_width hpos)]
    rcases h.harmless hother with herrorless | ⟨hinactive, hstale | hrecursive⟩
    · exact .inl herrorless
    · refine .inr ⟨hinactive, .inl ?_⟩
      rw [versionAt_bumped (h.lt_width hpos)]
      split
      · rename_i heq
        subst heq
        exact Nat.lt_succ_of_lt hstale
      · exact hstale
    · exact .inr ⟨hinactive, .inr hrecursive⟩
  errorless := by
    intro other place hother
    rw [cellAt_bumped (h.lt_width hpos)]
    exact h.errorless hother

/-- Fewer cells are entered. -/
theorem of_entering (h : s.Harmless ctx cells (Entering entered id pos)) :
    s.Harmless ctx cells entered :=
  ⟨h.width, h.harmless, fun hother => h.errorless (.inl hother)⟩

/-- Before anything was tried no cell holds anything. -/
theorem start (ctx : Context) (cells : ClauseId → Nat → Prop) :
    (Session.start ctx.input.size).Harmless ctx cells fun _ _ => False where
  width := width_start _
  harmless := by
    intro other place _
    rw [cellAt_start]
    exact .inl nofun
  errorless := False.elim

end Session.Harmless

/-! ## Through the chart -/

section chart

variable {ctx : Context} {cells entered : ClauseId → Nat → Prop} {id : ClauseId} {pos : Nat}
  {evaluation : MatchM Outcome}

/-- Reading an entered cell. -/
theorem entered_cell_ensures (hpos : pos ≤ ctx.input.size) :
    Ensures True (Session.Harmless ctx cells (Entering entered id pos)) (Session.cell id pos)
      Cell.Errorless :=
  .of_run fun s hs =>
    ⟨s.cellAt id pos, s, Session.run_cell (hs.lt_width hpos), hs, hs.errorless (.inr ⟨rfl, rfl⟩)⟩

/-- Storing a cell without errors in the place of an entered one. -/
theorem entered_setCell_ensures (hpos : pos ≤ ctx.input.size) {cell : Cell}
    (hcell : cell.Errorless) :
    Ensures True (Session.Harmless ctx cells (Entering entered id pos))
      (Session.setCell id pos cell) fun _ => True :=
  .change fun _ hs => (hs.withCell hpos hcell).of_entering

/-- A cell that gets an outcome without errors. -/
theorem errorless_of_result {cell : Cell} {outcome : Outcome} (h : outcome.errors = 0)
    (hresult : cell.result = some outcome) : cell.Errorless := by
  intro other hother
  rw [hresult] at hother
  cases hother
  exact h

/-- Growing a match. Every round stores what the evaluation gives, or nothing. -/
theorem growSeed_errors (hpos : pos ≤ ctx.input.size)
    (heval : Ensures True (Session.Harmless ctx cells (Entering entered id pos)) evaluation
      fun outcome => outcome.errors = 0) :
    ∀ fuel : Nat, Ensures True (Session.Harmless ctx cells (Entering entered id pos))
      (growSeed evaluation id pos fuel) fun _ => True
  | 0 => .throw trivial
  | fuel + 1 => by
    have hbump : Ensures True (Session.Harmless ctx cells (Entering entered id pos))
        (Session.bump pos) fun _ => True :=
      .of_run fun s hs => ⟨_, _, Session.run_bump (hs.lt_width hpos), hs.bumped hpos, trivial⟩
    rw [growSeed]
    refine .bind (.change fun _ hs => hs.of_chart_eq rfl) fun _ _ => ?_
    refine .bind heval fun outcome houtcome => ?_
    refine .bind (entered_cell_ensures hpos) fun cell _ => ?_
    split
    · exact .pure trivial
    · split
      · exact entered_setCell_ensures hpos (errorless_of_result houtcome rfl)
      · have hgrown : ∀ version, Ensures True (Session.Harmless ctx cells (Entering entered id pos))
            (storeGrown id pos cell outcome version) fun _ => True := by
          intro version
          refine .bind (entered_setCell_ensures hpos (errorless_of_result houtcome rfl)) fun _ _ => ?_
          refine .bind (.change fun _ hs => hs.of_chart_eq rfl) fun _ _ => ?_
          exact .change fun _ hs => hs.of_chart_eq rfl
        exact .bind hbump fun version _ => .bind (hgrown version) fun _ _ =>
          growSeed_errors hpos heval fuel

/-- A clause that is under evaluation is answered with what its cell holds. -/
theorem reenter_errors (hpos : pos ≤ ctx.input.size) {cell : Cell} (hcell : cell.Errorless) :
    Ensures True (Session.Harmless ctx cells entered) (reenter id pos cell)
      fun outcome => outcome.errors = 0 := by
  unfold reenter
  split
  · rename_i node hresult
    exact .pure (hcell _ hresult)
  · exact .pure rfl
  · refine .bind (.change fun _ hs => (hs.withCell hpos ?_).of_entering) fun _ _ => .pure rfl
    have hmismatch : Outcome.mismatch.errors = 0 := rfl
    exact errorless_of_result hmismatch rfl

/-- **Matching through a harmless cell** gives no errors if evaluating its clause gives none. -/
theorem matchThrough_errors (hpos : pos ≤ ctx.input.size) (hcells : cells id pos)
    (heval : Ensures True (Session.Harmless ctx cells (Entering entered id pos)) evaluation
      fun outcome => outcome.errors = 0) :
    Ensures True (Session.Harmless ctx cells entered)
      (matchThrough ctx evaluation .discovery id pos) fun outcome => outcome.errors = 0 := by
  -- What is done after the cell was entered, up to the answer.
  have hrest : Ensures True (Session.Harmless ctx cells (Entering entered id pos))
      (do growSeed evaluation id pos (ctx.input.size + 3)
          let cell := (← Session.cell id pos).leave .discovery (← Session.version pos)
          Session.setCell id pos cell
          return cell.result.getD .mismatch)
      fun outcome => outcome.errors = 0 := by
    refine .bind (growSeed_errors hpos heval _) fun _ _ => ?_
    refine .bind (entered_cell_ensures hpos) fun cell hcell => ?_
    have hversion : Ensures True (Session.Harmless ctx cells (Entering entered id pos))
        (Session.version pos) fun _ => True :=
      .of_run fun s hs => ⟨_, _, Session.run_version (hs.lt_width hpos), hs, trivial⟩
    refine .bind hversion fun version _ => ?_
    refine .bind (entered_setCell_ensures hpos (hcell.leave _ _)) fun _ _ => .pure ?_
    exact (hcell.leave _ _).getD
  intro s hs
  have hlt := hs.lt_width hpos
  have hcell := hs.harmless hcells
  rw [matchThrough, Session.run_bind_of_ok (Session.run_version hlt),
    Session.run_bind_of_ok (Session.run_cell hlt)]
  cases hreuse : (s.cellAt id pos).reusable? .discovery (s.versionAt pos) pos ctx.input.size with
  | some outcome => exact ⟨hs.of_chart_eq rfl, hcell.reusable hreuse⟩
  | none =>
    by_cases hactive : (s.cellAt id pos).active = true
    · simp only [if_pos hactive]
      exact reenter_errors hpos (hcell.of_active hactive) s hs
    · simp only [if_neg hactive]
      rw [Session.run_bind_of_ok Session.run_setCell]
      have hanswer := hrest _ (hs.withCell hpos hcell.enter)
      generalize StateT.run _ _ = result at hanswer ⊢
      cases result with
      | error e => trivial
      | ok answer => exact ⟨hanswer.1.of_entering, hanswer.2⟩

end chart

/-- **Plain matching in a harmless part of the chart** gives no errors and leaves the part harmless.
The induction is on the depth, for whatever cells are entered. -/
theorem matchClause_errors {ctx : Context} {cells : ClauseId → Nat → Prop}
    (hclosed : Closed ctx cells) : ∀ {depth : Nat} {entered : ClauseId → Nat → Prop}
    {id : ClauseId} {pos : Nat} {bound : Option ClauseId}, cells id pos →
    Ensures True (Session.Harmless ctx cells entered) (matchClause ctx depth .discovery id pos bound)
      fun outcome => outcome.errors = 0
  | 0, _, _, _, _, _ => .throw trivial
  | depth + 1, entered, id, pos, bound, hcells => by
    rw [matchClause_succ]
    refine matchWith_ensures (fun _ => rfl) fun {clause} hclause hpos => ?_
    have hevaluate : ∀ entered', Ensures True (Session.Harmless ctx cells entered')
        (evaluate ctx (matchClause ctx depth) .discovery id clause pos bound)
        fun outcome => outcome.errors = 0 := by
      refine fun entered' => evaluate_errors fun child hchild place bound' hplace => ?_
      exact matchClause_errors hclosed (hclosed hcells ⟨clause, hclause, hchild⟩ hplace)
    split
    · exact hevaluate entered
    · exact matchThrough_errors hpos hcells (hevaluate _)

/-! ## Probes -/

/-- **A probe gives no errors that the chart does not hold out to it.** From every sound session over
a built grammar, matching a clause at a position in the first phase and without a bound gives one
result, at whatever depth it gives any; and unless the cell of a clause that it may come to, there or
later, holds errors that a plain lookup can get, the result has none. -/
theorem probe_errors_eq_zero {definitions : List Definition} {g : Grammar}
    (hb : Grammar.build definitions = .ok g) {input : Array Char} {s : Session}
    (hs : s.Sound ⟨g, input⟩) {id : ClauseId} {pos : Nat} (hid : id < g.clauses.size)
    (hpos : pos ≤ input.size)
    (hstored : ∀ other place, g.Reaches id other → pos ≤ place →
      (s.cellAt other place).Harmless (s.versionAt place)) :
    ∃ outcome t,
      (matchClause ⟨g, input⟩ (Context.depth ⟨g, input⟩) .discovery id pos none).run s =
        .ok (outcome, t) ∧
      (∀ depth result, (matchClause ⟨g, input⟩ depth .discovery id pos none).run s = .ok result →
        result = (outcome, t)) ∧
      outcome.errors = 0 ∧
      ∀ node, outcome = .matched node → ∀ other ∈ node.nodes, other.isError = false := by
  let ctx : Context := ⟨g, input⟩
  have hg : ctx.grammar.WellFormed := build_wellFormed hb
  have hanswers : Answers ctx id pos (matchClause ctx ctx.depth .discovery id pos none) s :=
    matchClause_answers hg hs hid nofun hpos (hg.chain_ends id hid) (ctx.depth_suffices s)
  obtain ⟨outcome, t, hrun, -, -, hsound⟩ := hanswers
  have hharmless : s.Harmless ctx (Onward ctx id pos) fun _ _ => False :=
    ⟨hs.width, fun hcells => hstored _ _ hcells.1 hcells.2, False.elim⟩
  have herrors : outcome.errors = 0 :=
    ((matchClause_errors (closed_onward ctx id pos) ⟨.refl, Nat.le_refl pos⟩).of_ok hharmless hrun).2
  refine ⟨outcome, t, hrun, fun depth result hresult => matchClause_result_unique hresult hrun,
    herrors, ?_⟩
  rintro node rfl
  exact (hsound node rfl).not_isError herrors

/-- Two ways to go on with the same clause. -/
def leapDefinitions : List Definition :=
  [⟨"S", .choice [.seq [.lit "xyz", .reference "A", .lit "!"], .seq [.reference "A", .lit "."]]⟩,
    ⟨"A", .seq [.lit "ab", .lit "c"]⟩]

/-- The grammar of the two ways. -/
def leapGrammar : Grammar where
  clauses := #[.literal ['x', 'y', 'z'], .reference "A" 10, .literal ['!'], .seq [0, 1, 2],
    .reference "A" 10, .literal ['.'], .seq [4, 5], .choice [3, 6], .literal ['a', 'b'],
    .literal ['c'], .seq [8, 9]]
  rules := [⟨"S", false, 7⟩, ⟨"A", false, 10⟩]

/-- An input in which the common clause has to be repaired. -/
def leapContext : Context := ⟨leapGrammar, "xyzab?c.".toList.toArray⟩

/-- The repaired match of the common clause. -/
def leapMatch : Node := .wrap 10 [.terminal 8 3 2, .skipped 5 1, .terminal 9 6 1] true

/-- With the repaired match in the chart, a probe of the clause further on still gives no errors. -/
theorem probe_errors_eq_zero_leap :
    Grammar.build leapDefinitions = .ok leapGrammar ∧
      ∃ s : Session, s.Sound leapContext ∧
        (s.cellAt 10 3).result = some (.matched leapMatch) ∧ leapMatch.errors = 1 ∧
        ∃ outcome t,
          (matchClause leapContext leapContext.depth .discovery 4 4 none).run s = .ok (outcome, t) ∧
            outcome.errors = 0 := by
  have hb : Grammar.build leapDefinitions = .ok leapGrammar := rfl
  let cell : Cell := { result := some (.matched leapMatch), phase := .recovery }
  let s : Session := (Session.start 8).withCell 10 3 cell
  have hlt : 3 < (Session.start 8).width := by rw [Session.width_start]; decide
  have hcell : s.cellAt 10 3 = cell := Session.cellAt_withCell_self hlt
  have hmatch : leapMatch.Matches leapContext 10 3 := by
    have hid : leapContext.grammar.clause? 8 = some (.literal ['a', 'b']) := rfl
    have hid' : leapContext.grammar.clause? 9 = some (.literal ['c']) := rfl
    have hforms : Forms leapContext.input (.literal ['a', 'b']) 3 5 [] := .literal (by decide)
    have hforms' : Forms leapContext.input (.literal ['c']) 6 7 [] := .literal (by decide)
    have hab : (Node.terminal 8 3 2).Matches leapContext 8 3 :=
      Node.matches_leaf hid hforms (by decide)
    have hc : (Node.terminal 9 6 1).Matches leapContext 9 6 :=
      Node.matches_leaf hid' hforms' (by decide)
    have hskip : ∀ other ∈ (Node.skipped 5 1).nodes, other.Formed leapContext :=
      formed_skipped (by decide) (by decide)
    have helements : Elements 8 [8, 9] 3 [.terminal 8 3 2, .skipped 5 1, .terminal 9 6 1] 7 :=
      .matched hab.isMatch (.resumed hc.isMatch .nil)
    refine Node.matches_wrap (by decide) (.seq helements) nofun (by decide) ?_
    exact formed_cons hab.formed (formed_cons hskip (formed_cons hc.formed (by simp [Node.nodesOf])))
  have hsound : s.Sound leapContext := by
    refine (Session.Sound.start leapContext).withCell (by decide) fun outcome houtcome => ?_
    cases houtcome
    exact Outcome.sound_matched hmatch
  have hstored : ∀ other place, leapGrammar.Reaches 4 other → 4 ≤ place →
      (s.cellAt other place).Harmless (s.versionAt place) := by
    intro other place _ hplace
    rw [Session.cellAt_withCell hlt, if_neg (by omega), Session.cellAt_start]
    exact .inl nofun
  obtain ⟨outcome, t, hrun, -, herrors, -⟩ :=
    probe_errors_eq_zero hb hsound (show 4 < 11 by decide) (show 4 ≤ 8 by decide) hstored
  exact ⟨hb, s, hsound, by rw [hcell], rfl, outcome, t, hrun, herrors⟩

/-- **A probe can be answered with a repaired match.** The first way matches the clause with a repair
before it fails. The probe of the second way finds that match in the chart and gives its error, and
the parse takes it over after the input that was passed over. -/
theorem probe_meets_stored_errors :
    Grammar.build leapDefinitions = .ok leapGrammar ∧
      ((do
        let _ ← matchClause leapContext leapContext.depth .discovery 7 0 none
        let _ ← matchClause leapContext leapContext.depth .recovery 3 0 none
        matchClause leapContext leapContext.depth .discovery 4 3 none).run
          (Session.start 8)).toOption.map (fun result : Outcome × Session => result.1.errors) =
        some 1 ∧
      (parse leapGrammar "S" "xyzab?c.").toOption.map Parse.root =
        some (.wrapOne 7
          (.wrap 6 [.skipped 0 3, .wrapOne 4 leapMatch true, .terminal 5 7 1] true) true) := by
  refine ⟨rfl, ?_, ?_⟩ <;> decide +kernel

end Packrat
