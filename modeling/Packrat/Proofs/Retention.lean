import Packrat.Proofs.Parsing

/-!
# What recovery keeps of plain matching

Recovery starts from the chart that plain matching leaves. The match of the top rule is in it, and the
cell of a clause takes another result only for a longer one. What can be lost is a match that was grown:
the cell of a clause that came back to itself is emptied when the phase changes, and recovery grows a
match of its own.

* `Cell.Rests` — a cell after an evaluation, with the version of its column.
* `growSeed_outgrows`, `matchThrough_outgrows` — what a direct clause has matched is kept or outgrown, in
  one round and through the chart.
* `Grammar.LeadsTo` — the clause at the end of a chain of references; `matchClause_leads` — matching a
  reference is matching that clause.
* `Job.comesBackTo` — whether plain matching came back to a clause at the start of the input.
* **`parse_never_shrinks`** — a parse with repairs matches no less than one without, if plain matching
  did not come back to the body of the top rule; **`parse_shrinks_grown`** — it can, if it did.
-/

namespace Packrat

/-! ## Cells after an evaluation -/

/-- Whether a cell holds an outcome of the present version of its column, and is not under
evaluation. -/
structure Cell.Rests (cell : Cell) (outcome : Outcome) (version : Nat) : Prop where
  /-- The outcome is stored. -/
  result : cell.result = some outcome
  /-- The clause is not under evaluation. -/
  active : cell.active = false
  /-- The outcome is not stale. -/
  version : cell.version = version

/-- A result that is reused is not stale. -/
theorem Cell.version_of_reusable {cell : Cell} {phase : Phase} {version pos inputLen : Nat}
    {outcome : Outcome} (h : cell.reusable? phase version pos inputLen = some outcome) :
    cell.version = version := by
  have hguard := (Option.filter_eq_some_iff.1 h).2
  rw [Bool.and_eq_true, Bool.and_eq_true, beq_iff_eq] at hguard
  exact hguard.1.1

/-- Entering the cell of a direct clause keeps a result that is not stale. -/
theorem Cell.enter_of_direct {cell : Cell} {version : Nat} (hversion : cell.version = version)
    (hdirect : cell.leftRecursive = false) (phase : Phase) :
    cell.enter phase version = { cell with active := true } := by
  simp [Cell.enter, hversion, hdirect]

/-- Leaving the cell of a direct clause keeps its result. -/
theorem Cell.result_leave_of_direct {cell : Cell} (hdirect : cell.leftRecursive = false)
    (phase : Phase) (version : Nat) : (cell.leave phase version).result = cell.result := by
  simp [Cell.leave, hdirect]

section chart

variable {ctx : Context} {id : ClauseId} {pos : Nat} {s : Session} {evaluation : MatchM Outcome}
  {phase : Phase}

/-- **A round of a direct clause** keeps what is stored or replaces it by a longer match. An evaluation
does not touch a result in the cell of its own clause. -/
theorem growSeed_outgrows (hpos : pos ≤ ctx.input.size)
    (heval : ∀ t, Growing ctx id pos s t → Answers ctx id pos evaluation t) {t u : Session}
    (hgrow : Growing ctx id pos s t) {stored : Outcome}
    (hstored : (t.cellAt id pos).result = some stored)
    (hdirect : (t.cellAt id pos).leftRecursive = false) {fuel : Nat}
    (hrun : (growSeed evaluation id pos (fuel + 1)).run t = .ok ((), u)) :
    ∃ outcome, u.cellAt id pos = { t.cellAt id pos with result := some outcome } ∧
      (outcome = stored ∨ outcome.longerThan stored = true) := by
  have hcounted : Growing ctx id pos s { t with work := t.work.map fun work =>
      { work with evaluations := work.evaluations + 1 } } :=
    hgrow.answered ⟨hgrow.sound.width, hgrow.sound.stored⟩ (.of_cellAt_eq fun _ _ => rfl)
  obtain ⟨outcome, v, heval', hsound, hevolves, -⟩ := heval _ hcounted
  have hlt := hsound.lt_width hpos
  have hsame : v.cellAt id pos = t.cellAt id pos := by
    have hkept : (t.cellAt id pos).Kept (v.cellAt id pos) := hevolves.kept trivial hgrow.active
    rcases hkept with heq | ⟨hnone, -⟩
    · exact heq
    · rw [hstored] at hnone
      cases hnone
  rw [growSeed, Session.run_bind_of_ok Session.run_tally, Session.run_bind_of_ok heval',
    Session.run_bind_of_ok (Session.run_cell hlt), hsame] at hrun
  by_cases hlonger : outcome.longerThan stored = true
  · rw [if_neg (by simp [hstored, hlonger]), if_pos (by simp [hdirect])] at hrun
    cases hrun
    exact ⟨outcome, Session.cellAt_withCell_self hlt, .inr hlonger⟩
  · rw [if_pos (by simp [hstored, hlonger])] at hrun
    cases hrun
    refine ⟨stored, ?_, .inl rfl⟩
    rw [hsame, ← hstored]

/-- A match through the chart rests in its cell. -/
theorem matchThrough_rests (hs : s.Sound ctx) (hpos : pos ≤ ctx.input.size)
    (hinactive : (s.cellAt id pos).active = false)
    (heval : ∀ t, Growing ctx id pos s t → Answers ctx id pos evaluation t) {node : Node}
    {t : Session}
    (hrun : (matchThrough ctx evaluation phase id pos).run s = .ok (.matched node, t)) :
    (t.cellAt id pos).Rests (.matched node) (t.versionAt pos) := by
  have hlt := hs.lt_width hpos
  cases hreuse : (s.cellAt id pos).reusable? phase (s.versionAt pos) pos ctx.input.size with
  | some outcome =>
    rw [matchThrough, Session.run_bind_of_ok (Session.run_version hlt),
      Session.run_bind_of_ok (Session.run_cell hlt), hreuse] at hrun
    cases hrun
    exact ⟨Cell.reusable?_eq_some hreuse, hinactive, Cell.version_of_reusable hreuse⟩
  | none =>
    obtain ⟨u, -, hgrow, hrun'⟩ := matchThrough_entered hs hpos hreuse hinactive heval
    have hlt' := hgrow.sound.lt_width hpos
    obtain ⟨houtcome, rfl⟩ := Prod.mk.inj (Except.ok.inj (hrun'.symm.trans hrun))
    rw [Session.cellAt_withCell_self hlt', Session.versionAt_withCell hlt']
    refine ⟨?_, rfl, rfl⟩
    cases hresult : ((u.cellAt id pos).leave phase (u.versionAt pos)).result with
    | none =>
      rw [hresult] at houtcome
      cases houtcome
    | some outcome =>
      rw [hresult] at houtcome
      rw [← houtcome]
      rfl

/-- **Matching a direct clause again**, in whatever phase: its match is kept or outgrown. -/
theorem matchThrough_outgrows (hs : s.Sound ctx) (hpos : pos ≤ ctx.input.size) {node : Node}
    (hrests : (s.cellAt id pos).Rests (.matched node) (s.versionAt pos))
    (hdirect : (s.cellAt id pos).leftRecursive = false)
    (heval : ∀ t, Growing ctx id pos s t → Answers ctx id pos evaluation t) (phase : Phase) :
    ∃ longer t, (matchThrough ctx evaluation phase id pos).run s = .ok (.matched longer, t) ∧
      node.len ≤ longer.len := by
  have hlt := hs.lt_width hpos
  cases hreuse : (s.cellAt id pos).reusable? phase (s.versionAt pos) pos ctx.input.size with
  | some outcome =>
    obtain rfl : outcome = .matched node :=
      Option.some.inj ((Cell.reusable?_eq_some hreuse).symm.trans hrests.result)
    rw [matchThrough, Session.run_bind_of_ok (Session.run_version hlt),
      Session.run_bind_of_ok (Session.run_cell hlt), hreuse]
    exact ⟨node, _, rfl, Nat.le_refl _⟩
  | none =>
    obtain ⟨t, hgrown, hgrow, hrun⟩ := matchThrough_entered hs hpos hreuse hrests.active heval
    have hentered := Cell.enter_of_direct hrests.version hdirect phase
    have hcell : (s.withCell id pos ((s.cellAt id pos).enter phase (s.versionAt pos))).cellAt id pos =
        { s.cellAt id pos with active := true } := by
      rw [Session.cellAt_withCell_self hlt, hentered]
    have hstart : Growing ctx id pos s
        (s.withCell id pos ((s.cellAt id pos).enter phase (s.versionAt pos))) := by
      refine ⟨hs.withCell hpos fun outcome h => hs.stored (Cell.result_enter h), .withCell hlt, ?_⟩
      rw [hcell]
    obtain ⟨outcome, houtcome, hlonger⟩ := growSeed_outgrows hpos heval hstart
      (by rw [hcell]; exact hrests.result) (by rw [hcell]; exact hdirect) hgrown
    rw [hcell] at houtcome
    rw [Cell.result_leave_of_direct (by rw [houtcome]; exact hdirect), houtcome] at hrun
    rcases hlonger with rfl | hlonger
    · exact ⟨node, _, hrun, Nat.le_refl _⟩
    · obtain ⟨longer, rfl⟩ := Outcome.exists_node_of_longerThan hlonger
      rw [Outcome.longerThan_matched, decide_eq_true_eq] at hlonger
      exact ⟨longer, _, hrun, Nat.le_of_lt hlonger⟩

end chart

/-! ## Chains of references -/

/-- **Whether a clause leads to another one** that is no reference: it is that clause, or a reference to
a rule whose body leads to it. -/
inductive Grammar.LeadsTo (g : Grammar) : ClauseId → ClauseId → Prop where
  /-- A clause that is no reference. -/
  | here {id : ClauseId} {clause : Clause} (hclause : g.clause? id = some clause)
      (hkind : clause.isReference = false) : LeadsTo g id id
  /-- A reference to a rule. -/
  | through {id target body : ClauseId} {name : String}
      (hclause : g.clause? id = some (.reference name target)) (hrest : LeadsTo g target body) :
      LeadsTo g id body

/-- A match made of one other is as long. -/
theorem Node.len_wrapOne (id : ClauseId) (child : Node) (complete : Bool) :
    (Node.wrapOne id child complete).len = child.len := by
  show child.pos + child.len - child.pos = child.len
  omega

section references

variable {ctx : Context} {pos : Nat} {phase : Phase} {bound : Option ClauseId}

/-- The end of a chain is a clause that is no reference. -/
theorem Grammar.LeadsTo.exists_clause {g : Grammar} {id body : ClauseId} (h : g.LeadsTo id body) :
    ∃ clause, g.clause? body = some clause ∧ clause.isReference = false := by
  induction h with
  | here hclause hkind => exact ⟨_, hclause, hkind⟩
  | through _ _ ih => exact ih

/-- **Matching a reference** is matching the clause that it leads to. -/
theorem matchClause_leads {id body : ClauseId} (h : ctx.grammar.LeadsTo id body)
    (hpos : pos ≤ ctx.input.size) {depth : Nat} {s t : Session} {outcome : Outcome}
    (hrun : (matchClause ctx depth phase id pos bound).run s = .ok (outcome, t)) :
    ∃ depth' inner, (matchClause ctx depth' phase body pos bound).run s = .ok (inner, t) ∧
      inner.len? = outcome.len? := by
  induction h generalizing depth outcome with
  | here => exact ⟨depth, outcome, hrun, rfl⟩
  | through hclause _ ih =>
    cases depth with
    | zero => cases hrun
    | succ depth =>
      rw [matchClause_succ, matchWith_of_clause (by omega) hclause] at hrun
      obtain ⟨given, u, hgiven, hwrapped⟩ := Session.run_bind_eq_ok.1 hrun
      cases given with
      | matched node =>
        cases hwrapped
        obtain ⟨depth', inner, hinner, hlen⟩ := ih hgiven
        refine ⟨depth', inner, hinner, hlen.trans ?_⟩
        exact congrArg some (Node.len_wrapOne _ node _).symm
      | mismatch | pending =>
        cases hwrapped
        exact ih hgiven

/-- Matching a clause is matching the one that it leads to through the cell of that one, by an
evaluation that always answers. -/
theorem matchClause_through (hg : ctx.grammar.WellFormed) {id body : ClauseId}
    (h : ctx.grammar.LeadsTo id body) (phase : Phase) (bound : Option ClauseId)
    (hbound : ∀ other ∈ bound, ctx.Has other) (hpos : pos ≤ ctx.input.size) :
    ∃ evaluation, (∀ t : Session, t.Sound ctx → Answers ctx body pos evaluation t) ∧
      ∀ {depth : Nat} {s t : Session} {outcome : Outcome}, s.Sound ctx →
        (matchClause ctx depth phase id pos bound).run s = .ok (outcome, t) →
        ∃ inner, (matchThrough ctx evaluation phase body pos).run s = .ok (inner, t) ∧
          inner.len? = outcome.len? := by
  obtain ⟨clause, hclause, hkind⟩ := h.exists_clause
  have hbody : ctx.Has body := (Array.getElem?_eq_some_iff.1 hclause).1
  refine ⟨evaluate ctx (matchClause ctx ctx.depth) phase body clause pos bound, fun t ht => ?_, ?_⟩
  · refine answers_of_ensures ht (evaluate_ensures (stable_evolves ctx t) ?_ hclause hkind
      (hg.children_lt hclause) hbound hpos)
    intro phase' other place bound' hother hbound' hplace
    exact ensures_of_answers fun u hu _ =>
      matchClause_answers hg hu hother hbound' hplace (hg.chain_ends other hother)
        (ctx.depth_suffices u)
  · intro depth s t outcome hs hrun
    obtain ⟨depth', inner, hinner, hlen⟩ := matchClause_leads h hpos hrun
    obtain ⟨result, hresult⟩ := (matchClause_converges hg hs hbody hbound hpos :
      ∃ result, ∀ depth ≥ ctx.depth, (matchClause ctx depth phase body pos bound).run s = .ok result)
    have hdeep := hresult (ctx.depth + 1) (Nat.le_succ _)
    obtain rfl : (inner, t) = result := matchClause_result_unique hinner hdeep
    refine ⟨inner, ?_, hlen⟩
    rw [matchClause_succ, matchWith_of_clause (by omega) hclause, hkind,
      if_neg Bool.false_ne_true] at hdeep
    exact hdeep

end references

/-! ## Parses -/

namespace Job

variable {job : Job}

/-- Whether plain matching of the top rule came back to a clause at the start of the input, while it was
under evaluation there. -/
def comesBackTo (job : Job) (id : ClauseId) : Bool :=
  match (job.matchTop job.firstPhase).run job.opening with
  | .ok (_, session) => (session.cellAt id 0).leftRecursive
  | .error _ => false

/-- **The second phase outgrows the first**, from the body of the top rule on, if plain matching did not
come back to it. -/
theorem matchTop_outgrows (hg : job.grammar.WellFormed) {body : ClauseId}
    (hbody : job.grammar.LeadsTo job.top body) (hdirect : job.comesBackTo body = false) {node : Node}
    {t : Session}
    (hfirst : (job.matchTop job.firstPhase).run job.opening = .ok (.matched node, t)) (event : Event) :
    ∃ longer u, (job.matchTop .recovery).run { t with trace := event :: t.trace } =
      .ok (.matched longer, u) ∧ longer.Matches job.context job.top 0 ∧ node.len ≤ longer.len := by
  have hg' : job.context.grammar.WellFormed := hg
  have hbody' : job.context.grammar.LeadsTo job.top body := hbody
  have hopening : job.opening.Sound job.context := ⟨(start_sound job).width, (start_sound job).stored⟩
  have hidle : (job.opening.cellAt body 0).active = false := by
    show (job.start.cellAt body 0).active = false
    rw [start, Session.cellAt_start]
  have hcell : (t.cellAt body 0).leftRecursive = false := by
    rw [comesBackTo, hfirst] at hdirect
    exact hdirect
  have htop : job.context.Has job.top := by
    cases hbody with
    | here hclause _ => exact (Array.getElem?_eq_some_iff.1 hclause).1
    | through hclause _ => exact (Array.getElem?_eq_some_iff.1 hclause).1
  -- What plain matching leaves in the cell of the body.
  have ht : t.Sound job.context := ((matchTop_ensures hg htop _).of_ok hopening hfirst).1
  obtain ⟨evaluation, heval, hthrough⟩ :=
    matchClause_through hg' hbody' job.firstPhase none nofun (Nat.zero_le _)
  obtain ⟨inner, hinner, hlen⟩ := hthrough hopening hfirst
  obtain ⟨inner, rfl⟩ : ∃ found, inner = .matched found := by
    cases inner with
    | matched found => exact ⟨found, rfl⟩
    | mismatch | pending => cases hlen
  have hrests := matchThrough_rests hopening (Nat.zero_le _) hidle
    (fun u hgrow => heval u hgrow.sound) hinner
  -- What recovery makes of it.
  obtain ⟨evaluation', heval', hthrough'⟩ :=
    matchClause_through hg' hbody' .recovery none nofun (Nat.zero_le _)
  have hnoted : ({ t with trace := event :: t.trace } : Session).Sound job.context :=
    ⟨ht.width, ht.stored⟩
  obtain ⟨longer, v, hlonger, hle⟩ := matchThrough_outgrows hnoted (Nat.zero_le _) hrests hcell
    (fun u hgrow => heval' u hgrow.sound) .recovery
  obtain ⟨outcome, u, hrun, -, hsound⟩ := (matchTop_ensures hg htop .recovery).run hnoted
  obtain ⟨repaired, hrepaired, hlen'⟩ := hthrough' hnoted hrun
  obtain ⟨rfl, rfl⟩ := Prod.mk.inj (Except.ok.inj (hrepaired.symm.trans hlonger))
  cases outcome with
  | matched found =>
    refine ⟨found, u, hrun, hsound found rfl, ?_⟩
    have hsame : inner.len = node.len := Option.some.inj hlen
    have hsame' : longer.len = found.len := Option.some.inj hlen'
    omega
  | mismatch | pending => cases hlen'

/-- A match of the top rule that does not cover the input is shorter than it. -/
theorem len_lt_of_not_covers {node : Node} (hnode : node.Matches job.context job.top 0)
    (hcovers : job.covers (.matched node) = false) : node.len < job.input.size := by
  have hle : node.len ≤ job.input.size := by
    rw [← Nat.zero_add node.len, ← hnode.stop_eq]
    exact hnode.stop_le
  have hne : node.len ≠ job.input.size := by
    intro hlen
    simp [covers, Outcome.node?, hnode.pos_eq, hlen] at hcovers
  exact Nat.lt_of_le_of_ne hle hne

end Job

/-- **Recovery never shrinks a match that was not grown.** If the parse of an input without repairs
matches, so does the parse with repairs, and its root is no shorter, unless plain matching falls short
and came back to the body of the top rule at the start of the input. The body is the clause that the
rule stands for, or the one that its chain of references leads to. -/
theorem parse_never_shrinks {definitions : List Definition} {g : Grammar}
    (hb : Grammar.build definitions = .ok g) {rule : String} {top body : ClauseId}
    (hr : g.rule? rule = some top) (hbody : g.LeadsTo top body) {input : String} {stats : Bool}
    {p : Parse} (hp : parse g rule input ⟨false, stats⟩ = .ok p) (hmatch : p.isMatch = true)
    (hdirect : p.root.len < input.length →
      (g.job rule top input ⟨false, stats⟩).comesBackTo body = false) :
    ∃ q, parse g rule input ⟨true, stats⟩ = .ok q ∧ q.isMatch = true ∧ p.root.len ≤ q.root.len := by
  have hg := build_wellFormed hb
  let plain := g.job rule top input ⟨false, stats⟩
  let job := g.job rule top input ⟨true, stats⟩
  obtain ⟨first, outcome, work, ⟨t, hfirst⟩, hsound, hlast, hparse⟩ :=
    parse_phases hg hr input ⟨false, stats⟩
  obtain rfl : outcome = first := hlast (.inr rfl)
  obtain rfl := Except.ok.inj (hparse.symm.trans hp)
  have hmatch' : outcome.isMatch = true := (Job.isMatch_assemble plain hsound).symm.trans hmatch
  cases outcome with
  | mismatch | pending => cases hmatch'
  | matched node =>
    have hfirst' : (job.matchTop job.firstPhase).run job.opening = .ok (.matched node, t) := hfirst
    cases hcovers : job.covers (.matched node) with
    | true =>
      obtain ⟨first', outcome', work', ⟨t', ht'⟩, hsound', hlast', hparse'⟩ :=
        parse_phases hg hr input ⟨true, stats⟩
      obtain ⟨rfl, -⟩ := Prod.mk.inj (Except.ok.inj (ht'.symm.trans hfirst'))
      obtain rfl := hlast' (.inl hcovers)
      exact ⟨_, hparse', Job.isMatch_assemble job hsound', Nat.le_refl _⟩
    | false =>
      have hnode : node.Matches job.context job.top 0 := hsound node rfl
      have hshort : node.len < input.length := by
        rw [← size_toArray_toList]
        exact Job.len_lt_of_not_covers hnode hcovers
      obtain ⟨longer, u, hsecond, hlonger, hle⟩ :=
        Job.matchTop_outgrows hg hbody (hdirect hshort) hfirst' _
      obtain ⟨events, hexecute⟩ :=
        Job.execute_of_run (Job.matchPhases_repairs hfirst' hcovers rfl hsecond)
      exact ⟨_, parse_eq_ok (Job.make_eq_ok hr) hexecute,
        Job.isMatch_assemble job (Outcome.sound_matched hlonger), hle⟩

/-- Letters in a row, behind a reference. -/
def lettersDefinitions : List Definition :=
  [⟨"S", .reference "Row"⟩, ⟨"Row", .plus (.lit "a")⟩]

/-- The grammar of the letters. -/
def lettersGrammar : Grammar where
  clauses := #[.reference "Row" 2, .literal ['a'], .repeated 1 true]
  rules := [⟨"S", false, 0⟩, ⟨"Row", false, 2⟩]

/-- Letters with a foreign one between them: plain matching takes the two before it, and recovery all of
them. -/
theorem parse_never_shrinks_letters :
    Grammar.build lettersDefinitions = .ok lettersGrammar ∧ lettersGrammar.LeadsTo 0 2 ∧
      (lettersGrammar.job "S" 0 "aaXa" ⟨false, false⟩).comesBackTo 2 = false ∧
      ∃ p, parse lettersGrammar "S" "aaXa" ⟨false, false⟩ = .ok p ∧ p.isMatch = true ∧
        p.root.len = 2 ∧
        ∃ q, parse lettersGrammar "S" "aaXa" ⟨true, false⟩ = .ok q ∧ q.isMatch = true ∧
          2 ≤ q.root.len := by
  have hb : Grammar.build lettersDefinitions = .ok lettersGrammar := rfl
  have hleads : lettersGrammar.LeadsTo 0 2 := .through rfl (.here rfl rfl)
  have hdirect : (lettersGrammar.job "S" 0 "aaXa" ⟨false, false⟩).comesBackTo 2 = false := by
    decide +kernel
  have hp : parse lettersGrammar "S" "aaXa" ⟨false, false⟩ = .ok
      { grammar := lettersGrammar, topRule := "S", input := "aaXa".toList.toArray,
        root := .wrapOne 0 (.wrap 2 [.terminal 1 0 1, .terminal 1 1 1] false) false,
        unmatched := some ⟨2, 2, none⟩, hasErrors := true, work := none } := by
    decide +kernel
  exact ⟨hb, hleads, hdirect, _, hp, rfl, rfl,
    parse_never_shrinks hb rfl hleads hp rfl fun _ => hdirect⟩

/-- A rule that starts with itself, with an alternative before that one that recovery repairs. -/
def regrownDefinitions : List Definition :=
  [⟨"S", .choice [.seq [.lit "a", .lit "c"], .seq [.reference "S", .lit "bcd"], .lit "a"]⟩]

/-- The grammar of the rule. -/
def regrownGrammar : Grammar where
  clauses := #[.literal ['a'], .literal ['c'], .seq [0, 1], .reference "S" 7,
    .literal ['b', 'c', 'd'], .seq [3, 4], .literal ['a'], .choice [2, 5, 6]]
  rules := [⟨"S", false, 7⟩]

/-- **A grown match can shrink.** Plain matching grows the last alternative by the second one and takes
four characters. Recovery drops that match, repairs the first alternative, which takes three, and does
not grow it: the second alternative does not go on from there. -/
theorem parse_shrinks_grown :
    Grammar.build regrownDefinitions = .ok regrownGrammar ∧ regrownGrammar.LeadsTo 7 7 ∧
      (regrownGrammar.job "S" 7 "abcd?" ⟨false, false⟩).comesBackTo 7 = true ∧
      ∃ p q, parse regrownGrammar "S" "abcd?" ⟨false, false⟩ = .ok p ∧ p.isMatch = true ∧
        parse regrownGrammar "S" "abcd?" ⟨true, false⟩ = .ok q ∧ q.isMatch = true ∧
        p.root.len = 4 ∧ q.root.len = 3 := by
  have hp : parse regrownGrammar "S" "abcd?" ⟨false, false⟩ = .ok
      { grammar := regrownGrammar, topRule := "S", input := "abcd?".toList.toArray,
        root := .markGrown (.wrapOne 7 (.wrap 5 [.wrapOne 3 (.wrapOne 7 (.terminal 6 0 1) true) true,
          .terminal 4 1 3] true) true),
        unmatched := some ⟨4, 1, none⟩, hasErrors := true, work := none } := by
    decide +kernel
  have hq : parse regrownGrammar "S" "abcd?" ⟨true, false⟩ = .ok
      { grammar := regrownGrammar, topRule := "S", input := "abcd?".toList.toArray,
        root := .markGrown (.wrapOne 7 (.wrap 2 [.terminal 0 0 1, .skipped 1 1, .terminal 1 2 1] true)
          true),
        unmatched := some ⟨3, 2, none⟩, hasErrors := true, work := none } := by
    decide +kernel
  exact ⟨rfl, .here rfl rfl, by decide +kernel, _, _, hp, rfl, hq, rfl, rfl, rfl⟩

end Packrat
