import Packrat.Proofs.Renumbering

/-!
# Matching with other numbers

Nothing but the keys of the chart depends on the indices of clauses: grammars whose clauses correspond
are matched in step.

* `repairSequence_inStep`, `evaluateElements_inStep`, `iterate_inStep` and their kin — one lemma for
  each repair and for each kind of clause that has rules of its own; `evaluate_inStep` — any clause.
* `growSeed_inStep`, `matchThrough_inStep` — the steps through the chart.
* `matchClause_inStep`, `Job.matchPhases_inStep` — whole runs.
* **`parse_renumbers`** — the parses of corresponding grammars correspond.
-/

namespace Packrat

/-! ## Evaluating clauses -/

/-- Whether the clauses of two contexts correspond, and their inputs are the same. -/
structure Context.Renumbers (π : ClauseId → ClauseId) (ctx ctx' : Context) : Prop where
  /-- The clauses correspond. -/
  grammar : ctx.grammar.Renumbers π ctx'.grammar
  /-- The input is the same. -/
  input : ctx'.input = ctx.input

/-- Whether two matchers go in step on corresponding clauses. -/
def Matcher.InStep (π : ClauseId → ClauseId) (matcher matcher' : Matcher) : Prop :=
  ∀ phase key pos bound,
    Packrat.InStep π (Outcome.renumber π) (matcher phase key pos bound)
      (matcher' phase (π key) pos (bound.map π))

/-- The repair with the clauses of its match renumbered. -/
def SequenceRepair.renumber (π : ClauseId → ClauseId) : SequenceRepair → SequenceRepair
  | .deleteRest => .deleteRest
  | .skip len node => .skip len (node.renumber π)

/-- The repair with the clauses of its match renumbered. -/
def RepetitionRepair.renumber (π : ClauseId → ClauseId) (repair : RepetitionRepair) :
    RepetitionRepair :=
  { repair with resumed := repair.resumed.map (Node.renumber π) }

/-- Literals are the same, so they may pass over as much. -/
theorem leapsSelf_renumber (π : ClauseId → ClauseId) (input : Array Char) (failed : Clause)
    (pos skip : Nat) :
    leapsSelf input (failed.renumber π) pos skip = leapsSelf input failed pos skip := by
  cases failed <;> rfl

/-- Literals are the same, so they may pass over as much. -/
theorem leapsNext_renumber (π : ClauseId → ClauseId) (input : Array Char) (failed : Clause)
    (next : Option Clause) (pos skip : Nat) :
    leapsNext input (failed.renumber π) (next.map (Clause.renumber π)) pos skip =
      leapsNext input failed next pos skip := by
  cases failed with
  | literal text =>
    rcases next with _ | clause
    · rfl
    · rcases text with _ | ⟨c, _ | ⟨d, text⟩⟩ <;> cases clause <;> rfl
  | _ => rfl

/-- The following element, renumbered. -/
theorem elementBound_renumber (π : ClauseId → ClauseId) (phase : Phase) (rest : List ClauseId)
    (bound : Option ClauseId) :
    elementBound phase (rest.map π) (bound.map π) = (elementBound phase rest bound).map π := by
  cases phase <;> cases rest <;> rfl

/-- Lengths and errors are the same, so is the more plausible match. -/
theorem preferred_renumber (π : ClauseId → ClauseId) (candidate best : Node) :
    preferred (candidate.renumber π) (best.renumber π) = preferred candidate best := by
  simp [preferred, errorHeavy]

section evaluation

variable {π : ClauseId → ClauseId} {ctx ctx' : Context} {matcher matcher' : Matcher}

/-- Looking up clauses. -/
theorem Context.Renumbers.clause_inStep (h : ctx.Renumbers π ctx') (key : ClauseId) :
    InStep π (Clause.renumber π) (ctx.clause key) (ctx'.clause (π key)) := by
  unfold Context.clause
  rw [h.grammar.clause]
  cases ctx.grammar.clause? key with
  | none => exact .throw _
  | some clause => exact .pure rfl

section choices

variable (hM : matcher.InStep π matcher')
include hM

/-- The most plausible alternative. -/
theorem bestAlternative_inStep (phase : Phase) (pos : Nat) (bound : Option ClauseId) :
    ∀ (rest : List ClauseId) (best : Node),
      InStep π (Node.renumber π) (bestAlternative matcher phase pos bound rest best)
        (bestAlternative matcher' phase pos (bound.map π) (rest.map π) (best.renumber π))
  | [], _ => .pure rfl
  | alternative :: rest, best => by
    have hrest := bestAlternative_inStep phase pos bound rest
    rw [List.map_cons, bestAlternative, bestAlternative]
    refine .bind (hM _ _ _ _) fun outcome => ?_
    cases outcome with
    | mismatch | pending => exact hrest best
    | matched candidate =>
      have hchosen : (if preferred (candidate.renumber π) (best.renumber π)
          then candidate.renumber π else best.renumber π) =
            (if preferred candidate best then candidate else best).renumber π := by
        rw [preferred_renumber]
        split <;> rfl
      simp only [Outcome.renumber_matched, hchosen, Node.errors_renumber, Node.len_renumber]
      generalize (if preferred candidate best then candidate else best) = chosen
      split
      · exact .pure rfl
      · exact hrest chosen

/-- The first alternative that matches. -/
theorem firstAlternative_inStep (phase : Phase) (pos : Nat) (bound : Option ClauseId) :
    ∀ alternatives : List ClauseId,
      InStep π (Option.map (Node.renumber π)) (firstAlternative matcher phase pos bound alternatives)
        (firstAlternative matcher' phase pos (bound.map π) (alternatives.map π))
  | [] => .pure rfl
  | alternative :: rest => by
    rw [List.map_cons, firstAlternative, firstAlternative]
    refine .bind (hM _ _ _ _) fun outcome => ?_
    cases outcome with
    | mismatch | pending => exact firstAlternative_inStep phase pos bound rest
    | matched node => exact .pure rfl

/-- The alternative that a choice takes. -/
theorem chooseAlternative_inStep (phase : Phase) (pos : Nat) (bound : Option ClauseId)
    (alternatives : List ClauseId) :
    InStep π (Option.map (Node.renumber π)) (chooseAlternative matcher phase pos bound alternatives)
      (chooseAlternative matcher' phase pos (bound.map π) (alternatives.map π)) := by
  cases alternatives with
  | nil => exact .pure rfl
  | cons alternative rest =>
    rw [List.map_cons, chooseAlternative, chooseAlternative]
    refine .bind (hM _ _ _ _) fun outcome => ?_
    cases outcome with
    | mismatch | pending => exact firstAlternative_inStep hM phase pos bound rest
    | matched node =>
      simp only [Outcome.renumber_matched, Node.errors_renumber]
      split
      · exact .bind (bestAlternative_inStep hM phase pos bound rest node) fun _ => .pure rfl
      · exact .pure rfl

/-- Looking for the bound of a repetition. -/
theorem boundReached_inStep (phase : Phase) (bound : Option ClauseId) (pos : Nat) :
    InStep π id (boundReached matcher phase bound pos)
      (boundReached matcher' phase (bound.map π) pos) := by
  cases phase with
  | discovery => exact .pure rfl
  | recovery =>
    cases bound with
    | none => exact .pure rfl
    | some next =>
      refine .bind (hM _ _ _ none) fun outcome => .pure ?_
      rw [Outcome.len?_renumber]
      rfl

end choices

variable (hctx : ctx.Renumbers π ctx') (hM : matcher.InStep π matcher')
include hctx hM

/-- Repairing a sequence. -/
theorem repairSequence_inStep (failed : ClauseId) (rest : List ClauseId) (pos : Nat) :
    InStep π (Option.map (SequenceRepair.renumber π))
      (repairSequence ctx (matcher .discovery · · none) failed rest pos)
      (repairSequence ctx' (matcher' .discovery · · none) (π failed) (rest.map π) pos) := by
  have hnext : InStep π (Option.map (Clause.renumber π)) (rest.head?.mapM ctx.clause)
      ((rest.map π).head?.mapM ctx'.clause) := by
    cases rest with
    | nil => exact .pure rfl
    | cons next others =>
      rw [List.map_cons, List.head?_cons, List.head?_cons, Option.mapM_some, Option.mapM_some,
        ← bind_pure_comp, ← bind_pure_comp]
      exact .bind (hctx.clause_inStep next) fun _ => .pure rfl
  unfold repairSequence
  rw [hctx.input]
  split
  · exact .pure rfl
  · refine .bind (hctx.clause_inStep failed) fun failedClause =>
      .bind hnext fun next => .findSomeM? (fun skip => ?_) _
    unfold resumeAfter
    rw [hctx.input, leapsNext_renumber, leapsSelf_renumber]
    split
    · exact .pure rfl
    · refine .bind (hM _ _ _ none) fun outcome => ?_
      cases outcome with
      | mismatch | pending => exact .pure rfl
      | matched node =>
        simp only [Outcome.renumber_matched]
        split <;> exact .pure rfl

/-- Repairing a repetition. -/
theorem repairRepetition_inStep (item : ClauseId) (pos : Nat) (repaired : Bool) :
    InStep π (Option.map (RepetitionRepair.renumber π))
      (repairRepetition ctx (matcher .discovery · · none) item pos repaired)
      (repairRepetition ctx' (matcher' .discovery · · none) (π item) pos repaired) := by
  unfold repairRepetition
  rw [hctx.input]
  have hround : ∀ skip, InStep π (Option.map (RepetitionRepair.renumber π))
      (do return (← matcher .discovery item (pos + skip) none).node?.map fun node =>
        (⟨skip, some node⟩ : RepetitionRepair))
      (do return (← matcher' .discovery (π item) (pos + skip) none).node?.map fun node =>
        (⟨skip, some node⟩ : RepetitionRepair)) := by
    intro skip
    refine .bind (hM _ _ _ none) fun outcome => ?_
    cases outcome <;> exact .pure rfl
  refine .bind (.findSomeM? hround _) fun found => ?_
  cases found with
  | some repair => exact .pure rfl
  | none =>
    simp only [Option.map_none]
    split <;> exact .pure rfl

/-- Matching the elements of a sequence. -/
theorem evaluateElements_inStep (phase : Phase) (key : ClauseId) (bound : Option ClauseId) :
    ∀ (elements : List ClauseId) (pos : Nat),
      InStep π (Option.map (List.map (Node.renumber π)))
        (evaluateElements ctx matcher phase key bound elements pos)
        (evaluateElements ctx' matcher' phase (π key) (bound.map π) (elements.map π) pos)
  | [], _ => .pure rfl
  | element :: rest, pos => by
    have hrest := evaluateElements_inStep phase key bound rest
    -- The matcher and the repairs give nodes of the same extent, so both runs go on from one place.
    have hothers : ∀ (f : List Node → List Node) (f' : List Node → List Node) (place : Nat),
        (∀ nodes, f' (nodes.map (Node.renumber π)) = (f nodes).map (Node.renumber π)) →
        InStep π (Option.map (List.map (Node.renumber π)))
          (do return (← evaluateElements ctx matcher phase key bound rest place).map f)
          (do return (← evaluateElements ctx' matcher' phase (π key) (bound.map π) (rest.map π)
            place).map f') := by
      intro f f' place hf
      refine .bind (hrest place) fun others => .pure ?_
      cases others with
      | none => rfl
      | some nodes => exact congrArg some (hf nodes)
    rw [List.map_cons, evaluateElements, evaluateElements, elementBound_renumber]
    refine .bind (hM _ _ _ _) fun outcome => ?_
    cases outcome with
    | matched node =>
      simp only [Outcome.renumber_matched, Node.len_renumber]
      exact hothers _ _ _ fun nodes => rfl
    | mismatch | pending =>
      simp only [Outcome.renumber]
      split
      · exact .pure rfl
      · refine .bind (repairSequence_inStep hctx hM element rest pos) fun repair => ?_
        rcases repair with _ | _ | ⟨skip, node⟩
        · exact .pure rfl
        · refine .bind (recordRepair_inStep pos) fun _ => .bind (note_inStep _ _) fun _ => .pure ?_
          simp [Node.renumber, Function.comp_def]
        · refine .bind (recordRepair_inStep pos) fun _ => .bind (note_inStep _ _) fun _ => ?_
          simp only [Node.len_renumber]
          exact hothers _ _ _ fun nodes => rfl

/-- The iterations of a repetition. -/
theorem iterate_inStep (phase : Phase) (key item : ClauseId) (bound : Option ClauseId) :
    ∀ (fuel pos : Nat) (repaired : Bool),
      InStep π (Prod.map (List.map (Node.renumber π)) id)
        (iterate ctx matcher phase key item bound fuel pos repaired)
        (iterate ctx' matcher' phase (π key) (π item) (bound.map π) fuel pos repaired)
  | 0, _, _ => .throw _
  | fuel + 1, pos, repaired => by
    have hrest := iterate_inStep phase key item bound fuel
    rw [iterate, iterate, hctx.input]
    split
    · exact .pure rfl
    refine .bind (boundReached_inStep hM phase bound pos) fun reached => ?_
    rw [id_eq]
    split
    · exact .pure rfl
    refine .bind (hM _ _ _ none) fun outcome => ?_
    cases outcome with
    | matched node =>
      simp only [Outcome.renumber_matched, Node.len_renumber]
      split
      · exact .pure rfl
      · exact .bind (hrest _ _) fun _ => .pure rfl
    | mismatch | pending =>
      simp only [Outcome.renumber]
      split
      · exact .pure rfl
      refine .bind (repairRepetition_inStep hctx hM item pos repaired) fun repair => ?_
      rcases repair with _ | ⟨skip, _ | node⟩
      · exact .pure rfl
      · exact .bind (recordRepair_inStep pos) fun _ => .bind (note_inStep _ _) fun _ => .pure rfl
      · refine .bind (recordRepair_inStep pos) fun _ => .bind (note_inStep _ _) fun _ => ?_
        simp only [Option.map_some, Node.len_renumber]
        exact .bind (hrest _ _) fun _ => .pure rfl

/-- **Evaluating corresponding clauses.** -/
theorem evaluate_inStep (phase : Phase) (key : ClauseId) (clause : Clause) (pos : Nat)
    (bound : Option ClauseId) :
    InStep π (Outcome.renumber π) (evaluate ctx matcher phase key clause pos bound)
      (evaluate ctx' matcher' phase (π key) (clause.renumber π) pos (bound.map π)) := by
  have hcomplete : ∀ nodes : List Node, (nodes.map (Node.renumber π)).all Node.isComplete =
      nodes.all Node.isComplete := by
    intro nodes
    simp [List.all_map, Function.comp_def]
  cases clause with
  | seq elements =>
    refine .bind (evaluateElements_inStep hctx hM phase key bound elements pos) fun nodes => ?_
    rcases nodes with _ | _ | ⟨node, nodes⟩
    · exact .pure rfl
    · exact .pure rfl
    · refine .pure ?_
      rw [Outcome.renumber_matched, Node.renumber_wrap, hcomplete]
  | choice alternatives =>
    refine .bind (chooseAlternative_inStep hM phase pos bound alternatives) fun node => ?_
    cases node with
    | none => exact .pure rfl
    | some node =>
      refine .pure ?_
      rw [Outcome.renumber_matched, Node.renumber_wrapOne, Node.isComplete_renumber]
  | repeated item atLeastOne =>
    unfold evaluate evaluateRepetition
    simp only [Clause.renumber]
    rw [hctx.input]
    refine .bind (iterate_inStep hctx hM phase key item bound _ pos false) fun result => ?_
    obtain ⟨_ | ⟨node, nodes⟩, short⟩ := result
    · refine .pure ?_
      dsimp only
      split <;> rfl
    · refine .pure ?_
      rw [Outcome.renumber_matched, Node.renumber_wrap, ← hcomplete (node :: nodes)]
      rfl
  | optional item =>
    refine .bind (hM _ _ _ _) fun outcome => ?_
    cases outcome with
    | matched node =>
      refine .pure ?_
      rw [Outcome.renumber_matched, Node.renumber_wrapOne, Node.isComplete_renumber]
    | mismatch | pending =>
      refine .pure ?_
      rw [hctx.input]
      rfl
  | reference name target =>
    refine .bind (hM _ _ _ _) fun outcome => ?_
    cases outcome with
    | matched node =>
      refine .pure ?_
      rw [Outcome.renumber_matched, Node.renumber_wrapOne, Node.isComplete_renumber]
    | mismatch | pending => exact .pure rfl
  | ahead item | notAhead item =>
    refine .bind (hM _ _ _ _) fun outcome => ?_
    rw [Outcome.isMatch_renumber]
    split <;> exact .pure rfl
  | literal text =>
    refine .pure ?_
    rw [hctx.input]
    split <;> rfl
  | char c | charClass ranges inverted | anyChar =>
    refine .pure ?_
    rw [evaluateChar, evaluateChar, hctx.input]
    split <;> rfl
  | empty => exact .pure rfl

end evaluation

/-! ## Through the chart -/

section chart

variable {π : ClauseId → ClauseId} (hπ : Function.Injective π)
include hπ

/-- Growing matches. -/
theorem growSeed_inStep {evaluation evaluation' : MatchM Outcome}
    (h : InStep π (Outcome.renumber π) evaluation evaluation') (key : ClauseId) (pos : Nat) :
    ∀ fuel : Nat, InStep π id (growSeed evaluation key pos fuel) (growSeed evaluation' (π key) pos fuel)
  | 0 => .throw _
  | fuel + 1 => by
    rw [growSeed, growSeed]
    refine .bind (tally_inStep _) fun _ => .bind h fun outcome => ?_
    refine .bind (cell_inStep key pos) fun cell => ?_
    have hkeep : ((cell.renumber π).result.any (!(outcome.renumber π).longerThan ·)) =
        cell.result.any (!outcome.longerThan ·) := by
      unfold Cell.renumber
      cases cell.result with
      | none => rfl
      | some old => exact congrArg not (outcome.longerThan_renumber π old)
    rw [hkeep]
    split
    · exact .pure rfl
    · show InStep π id (if !cell.leftRecursive then _ else _) (if !cell.leftRecursive then _ else _)
      split
      · exact setCell_inStep hπ key pos { cell with result := some outcome }
      · have hgrown : ∀ version, InStep π id (storeGrown key pos cell outcome version)
            (storeGrown (π key) pos (cell.renumber π) (outcome.renumber π) version) := fun version =>
          .bind (setCell_inStep hπ key pos { cell with result := some outcome, version }) fun _ =>
            .bind (tally_inStep _) fun _ => note_inStep _ _
        exact .bind (bump_inStep pos) fun version => .bind (hgrown version) fun _ =>
          growSeed_inStep h key pos fuel

/-- Asking for clauses that are being evaluated. -/
theorem reenter_inStep (key : ClauseId) (pos : Nat) (cell : Cell) :
    InStep π (Outcome.renumber π) (reenter key pos cell) (reenter (π key) pos (cell.renumber π)) := by
  unfold reenter
  rcases hresult : cell.result with _ | _ | _ | node
  all_goals simp only [Cell.renumber, hresult, Option.map_none, Option.map_some, Outcome.renumber]
  · exact .bind (setCell_inStep hπ key pos { cell with leftRecursive := true, result := some .mismatch })
      fun _ => .pure rfl
  all_goals exact .pure rfl

/-- Matching through corresponding cells. -/
theorem matchThrough_inStep {ctx ctx' : Context} (hinput : ctx'.input = ctx.input)
    {evaluation evaluation' : MatchM Outcome}
    (h : InStep π (Outcome.renumber π) evaluation evaluation') (phase : Phase) (key : ClauseId)
    (pos : Nat) :
    InStep π (Outcome.renumber π) (matchThrough ctx evaluation phase key pos)
      (matchThrough ctx' evaluation' phase (π key) pos) := by
  unfold matchThrough
  refine .bind (version_inStep pos) fun version => .bind (cell_inStep key pos) fun cell => ?_
  rw [hinput, id_eq, Cell.reusable?_renumber]
  cases cell.reusable? phase version pos ctx.input.size with
  | some outcome => exact .bind (tally_inStep _) fun _ => .pure rfl
  | none =>
    show InStep π _ (if cell.active then _ else _) (if cell.active then _ else _)
    split
    · exact reenter_inStep hπ key pos cell
    · rw [← Cell.renumber_enter]
      refine .bind (setCell_inStep hπ key pos _) fun _ => .bind (growSeed_inStep hπ h key pos _) fun _ =>
        .bind (cell_inStep key pos) fun grown => .bind (version_inStep pos) fun last => ?_
      rw [id_eq, ← Cell.renumber_leave]
      refine .bind (setCell_inStep hπ key pos _) fun _ => .pure ?_
      show ((grown.leave phase last).result.map (Outcome.renumber π)).getD .mismatch = _
      cases (grown.leave phase last).result <;> rfl

end chart

/-- **Matching corresponding clauses.** The induction is on the depth. -/
theorem matchClause_inStep {π : ClauseId → ClauseId} {ctx ctx' : Context} (hctx : ctx.Renumbers π ctx') :
    ∀ depth : Nat, Matcher.InStep π (matchClause ctx depth) (matchClause ctx' depth)
  | 0 => fun _ _ _ _ => .throw _
  | depth + 1 => by
    intro phase key pos bound
    have hevaluate := evaluate_inStep hctx (matchClause_inStep hctx depth) phase key
    rw [matchClause_succ, matchWith, matchClause_succ, matchWith, hctx.input]
    split
    · exact .pure rfl
    · refine .bind (hctx.clause_inStep key) fun clause => ?_
      rw [Clause.isReference_renumber]
      split
      · exact hevaluate clause pos bound
      · exact matchThrough_inStep hctx.grammar.injective hctx.input (hevaluate clause pos bound) phase
          key pos

/-! ## Parses -/

/-- The parse with the clauses of its tree renumbered, for another grammar. -/
def Parse.renumber (π : ClauseId → ClauseId) (g : Grammar) (p : Parse) : Parse :=
  { p with grammar := g, root := p.root.renumber π }

namespace Job

variable {π : ClauseId → ClauseId} {g : Grammar}

/-- The same parse with another grammar. -/
def renumber (π : ClauseId → ClauseId) (g : Grammar) (job : Job) : Job :=
  { job with grammar := g, top := π job.top }

variable {job : Job} (h : job.grammar.Renumbers π g)
include h

/-- As many clauses allow the same depth. -/
theorem depth_renumber : (job.renumber π g).context.depth = job.context.depth := by
  show (g.clauses.size * _ + 1) * (g.clauses.size + 1) + 1 = _
  rw [h.size]
  rfl

omit h in
/-- The same outcomes cover the input. -/
theorem covers_renumber (outcome : Outcome) :
    (job.renumber π g).covers (outcome.renumber π) = job.covers outcome := by
  cases outcome with
  | matched node => simp [covers, renumber, Outcome.node?]
  | mismatch | pending => rfl

/-- The phases of corresponding parses. -/
theorem matchPhases_inStep :
    InStep π (Prod.map (Outcome.renumber π) id) job.matchPhases (job.renumber π g).matchPhases := by
  have hctx : job.context.Renumbers π (job.renumber π g).context := ⟨h, rfl⟩
  have htop : ∀ phase, InStep π (Outcome.renumber π) (job.matchTop phase)
      ((job.renumber π g).matchTop phase) := by
    intro phase
    rw [matchTop, matchTop, depth_renumber h]
    exact matchClause_inStep hctx _ phase job.top 0 none
  unfold matchPhases
  refine .bind (note_inStep _ _) fun _ => .bind (htop _) fun outcome => ?_
  rw [covers_renumber]
  split
  · exact .pure rfl
  · show InStep π _ (if !job.config.recovery then _ else _) (if !job.config.recovery then _ else _)
    split
    · exact .pure rfl
    · exact .bind (note_inStep _ _) fun _ => .bind (htop _) fun _ => .pure rfl

omit h in
/-- Corresponding outcomes stand for corresponding results. -/
theorem assemble_renumber (outcome : Outcome) (hasErrors : Bool) (work : Option Work) :
    (job.renumber π g).assemble (outcome.renumber π) hasErrors work =
      (job.assemble outcome hasErrors work).renumber π g := by
  cases outcome with
  | matched node => simp [assemble, rest?, renumber, Parse.renumber, Outcome.renumber]
  | mismatch | pending => rfl

/-- The results of corresponding parses. -/
theorem run_renumber : (job.renumber π g).run.1 = job.run.1.renumber π g := by
  have hstart : job.start.Renumbers π (job.renumber π g).start := .start job.input.size _
  rcases matchPhases_inStep h _ _ hstart with
    ⟨⟨outcome, hasErrors⟩, s, t, hrun, hrun', hst⟩ | ⟨e, hrun, hrun'⟩
  · obtain ⟨_, hexecute⟩ := execute_of_run hrun
    obtain ⟨_, hexecute'⟩ := execute_of_run hrun'
    rw [run, run, hexecute, hexecute', hst.work]
    exact assemble_renumber outcome hasErrors s.work
  · have hexecute : job.execute = .error e := by rw [execute, hrun]; rfl
    have hexecute' : (job.renumber π g).execute = .error e := by rw [execute, hrun']; rfl
    rw [run, run, hexecute, hexecute']
    rfl

end Job

/-- **Grammars with corresponding clauses give corresponding parses**: the trees differ in the numbers
of their clauses only, and the rest of the input, the flag and the counters are the same. -/
theorem parse_renumbers {π : ClauseId → ClauseId} {g g' : Grammar} (h : g.Renumbers π g')
    (rule input : String) (config : Config) :
    parse g' rule input config = (parse g rule input config).map (Parse.renumber π g') := by
  cases hr : g.rule? rule with
  | none =>
    have hr' : g'.rule? rule = none := by rw [h.rule, hr]; rfl
    rw [parse, parse, Job.make, Job.make, hr, hr']
    rfl
  | some top =>
    have hr' : g'.rule? rule = some (π top) := by rw [h.rule, hr]; rfl
    rw [parse, parse, Job.make_eq_ok hr, Job.make_eq_ok hr']
    let job := g.job rule top input config
    have hrun : (job.renumber π g').run.1 = job.run.1.renumber π g' := job.run_renumber h
    exact congrArg Except.ok hrun

end Packrat
