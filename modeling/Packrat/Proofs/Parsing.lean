import Packrat.Match.Parse
import Packrat.Proofs.Depth
import Packrat.Proofs.Matching

/-!
# Every parse ends with a result

* `Job.matchTop_ensures`, `Job.matchPhases_ensures` — what the phases of a parse give.
* `Job.execute_eq_ok` — the result of a run is put together from a sound outcome for the body of the
  top rule. Everything about the trees of a parse starts from here.
* `Job.First`, `parse_phases` — the outcome of the first phase, and what the result of a parse has to
  do with it.
* **`execute_terminates`** — no run over a built grammar breaks off, and the depth that it is given
  has no influence on its result.
-/

namespace Packrat

namespace Job

variable {job : Job}

/-! ## The phases -/

/-- Matching the top rule. -/
theorem matchTop_ensures (hg : job.grammar.WellFormed) (htop : job.context.Has job.top)
    (phase : Phase) :
    Ensures False (Session.Sound job.context) (job.matchTop phase)
      (Outcome.Sound job.context job.top 0) := by
  refine .of_run fun s hs => ?_
  have hanswers : Answers job.context job.top 0 (job.matchTop phase) s :=
    matchClause_answers hg hs htop nofun (Nat.zero_le _) (hg.chain_ends job.top htop)
      (job.context.depth_suffices s)
  obtain ⟨outcome, t, hrun, ht, -, hsound⟩ := hanswers
  exact ⟨outcome, t, hrun, ht, hsound⟩

/-- Events do not matter to a sound session. -/
theorem note_ensures (event : Event) :
    Ensures False (Session.Sound job.context) (Session.note event) fun _ => True :=
  .change fun _ hs => ⟨hs.width, hs.stored⟩

/-- Nothing is stored at the start of a parse. -/
theorem start_sound (job : Job) : job.start.Sound job.context := .start job.context

/-- What the phases give: a sound outcome, and no report of errors unless plain matching fell
short. -/
theorem matchPhases_ensures (hg : job.grammar.WellFormed) (htop : job.context.Has job.top) :
    Ensures False (Session.Sound job.context) job.matchPhases fun result =>
      result.1.Sound job.context job.top 0 ∧ (result.2 = false → job.covers result.1 = true) := by
  unfold matchPhases
  refine .bind (note_ensures _) fun _ _ => .bind (matchTop_ensures hg htop _) fun outcome hsound => ?_
  split
  · rename_i hcovers
    exact .pure ⟨hsound, fun _ => hcovers⟩
  · split
    · exact .pure ⟨hsound, nofun⟩
    · exact .bind (note_ensures _) fun _ _ =>
        .bind (matchTop_ensures hg htop .recovery) fun repaired hrepaired => .pure ⟨hrepaired, nofun⟩

/-- The session in which the top rule is matched first. -/
def opening (job : Job) : Session :=
  { job.start with trace := [.discovery job.topRule job.input.size] }

/-- Whether an outcome is that of the first phase. -/
def First (job : Job) (outcome : Outcome) : Prop :=
  ∃ t, (job.matchTop job.firstPhase).run job.opening = .ok (outcome, t)

/-- There is one outcome of the first phase. -/
theorem First.unique {first other : Outcome} (h : job.First first) (h' : job.First other) :
    first = other := by
  obtain ⟨t, ht⟩ := h
  obtain ⟨t', ht'⟩ := h'
  rw [ht] at ht'
  cases ht'
  rfl

/-- The phases report errors if the first one falls short. Unless it does and repairs are asked for,
its outcome is the last one. -/
theorem matchPhases_inv {outcome : Outcome} {hasErrors : Bool} {session : Session}
    (h : job.matchPhases.run job.start = .ok ((outcome, hasErrors), session)) :
    ∃ first, job.First first ∧ hasErrors = !job.covers first ∧
      (job.covers first = true ∨ job.config.recovery = false → outcome = first) := by
  rw [matchPhases, Session.run_bind_of_ok Session.run_note] at h
  obtain ⟨first, t, hfirst, h⟩ := Session.run_bind_eq_ok.1 h
  refine ⟨first, ⟨t, hfirst⟩, ?_⟩
  cases hcovers : job.covers first with
  | true =>
    rw [if_pos hcovers] at h
    cases h
    exact ⟨rfl, fun _ => rfl⟩
  | false =>
    rw [if_neg (Bool.eq_false_iff.1 hcovers)] at h
    cases hrecovery : job.config.recovery with
    | false =>
      rw [hrecovery] at h
      cases h
      exact ⟨rfl, fun _ => rfl⟩
    | true =>
      rw [hrecovery] at h
      obtain ⟨_, _, -, h⟩ := Session.run_bind_eq_ok.1 h
      obtain ⟨repaired, _, -, h⟩ := Session.run_bind_eq_ok.1 h
      cases h
      exact ⟨rfl, nofun⟩

/-- The phases of a parse that falls short and asks for repairs. -/
theorem matchPhases_repairs {first repaired : Outcome} {t u : Session}
    (hfirst : (job.matchTop job.firstPhase).run job.opening = .ok (first, t))
    (hshort : job.covers first = false) (hrecovery : job.config.recovery = true)
    (hsecond : (job.matchTop .recovery).run
      { t with trace := .recovery job.topRule first.len? :: t.trace } = .ok (repaired, u)) :
    job.matchPhases.run job.start = .ok ((repaired, true), u) := by
  have hrun : job.matchPhases.run job.start = _ :=
    (Session.run_bind_of_ok Session.run_note).trans (Session.run_bind_of_ok hfirst)
  rw [hrun, hshort, hrecovery]
  refine (Session.run_bind_of_ok Session.run_note).trans ?_
  rw [Session.run_bind_of_ok hsecond]
  rfl

/-! ## Runs -/

/-- The result of a run is put together from what the phases give. -/
theorem execute_of_run {outcome : Outcome} {hasErrors : Bool} {session : Session}
    (h : job.matchPhases.run job.start = .ok ((outcome, hasErrors), session)) :
    ∃ events, job.execute = .ok (job.assemble outcome hasErrors session.work, events) := by
  rw [execute, h]
  exact ⟨_, rfl⟩

/-- **What a run gives.** The phases end with a sound outcome, and the result is put together from
it. -/
theorem execute_eq_ok (hg : job.grammar.WellFormed) (htop : job.context.Has job.top) :
    ∃ outcome hasErrors work events,
      job.execute = .ok (job.assemble outcome hasErrors work, events) ∧
      outcome.Sound job.context job.top 0 ∧
      (hasErrors = false → job.covers outcome = true) := by
  obtain ⟨⟨outcome, hasErrors⟩, session, hrun, -, hsound, hcovers⟩ :=
    (matchPhases_ensures hg htop).run (start_sound job)
  obtain ⟨events, hexecute⟩ := execute_of_run hrun
  exact ⟨outcome, hasErrors, session.work, events, hexecute, hsound, hcovers⟩

/-- A prepared parse is about the grammar, the rule and the input that it was prepared from. -/
theorem make_eq_ok {g : Grammar} {rule input : String} {config : Config} {top : ClauseId}
    (hr : g.rule? rule = some top) :
    Job.make g rule input config =
      .ok ⟨g, unmarked rule, top, input.toList.toArray, config⟩ := by
  rw [Job.make, hr]
  rfl

/-- A prepared parse names a rule of its grammar. -/
theorem make_inv {g : Grammar} {rule input : String} {config : Config}
    (h : Job.make g rule input config = .ok job) :
    job.grammar = g ∧ g.rule? rule = some job.top ∧ job.input = input.toList.toArray ∧
      job.config = config := by
  unfold Job.make at h
  split at h
  · rename_i top hrule
    cases h
    exact ⟨rfl, hrule, rfl, rfl⟩
  · cases h

end Job

/-- The body of a rule of a well-formed grammar exists. -/
theorem Grammar.WellFormed.rule?_lt {g : Grammar} (hg : g.WellFormed) {rule : String}
    {top : ClauseId} (hr : g.rule? rule = some top) : top < g.clauses.size := by
  obtain ⟨found, hfound, rfl⟩ := Option.map_eq_some_iff.1 hr
  exact hg.body_lt found (List.mem_of_find?_eq_some hfound)

/-- A parse gives the result of its run. -/
theorem parse_eq_ok {g : Grammar} {rule input : String} {config : Config} {job : Job} {p : Parse}
    {events : List Event} (hj : Job.make g rule input config = .ok job)
    (h : job.execute = .ok (p, events)) : parse g rule input config = .ok p := by
  rw [parse, hj]
  show Except.ok job.run.1 = _
  rw [Job.run, h]

/-- The characters of an input are counted by its length. -/
theorem size_toArray_toList (input : String) : input.toList.toArray.size = input.length := by
  rw [List.size_toArray, String.length_toList]

/-- **What a parse gives**, from a rule of a well-formed grammar: the result of a prepared parse that
has a sound outcome. -/
theorem parse_of_rule {g : Grammar} (hg : g.WellFormed) {rule : String} {top : ClauseId}
    (hr : g.rule? rule = some top) (input : String) (config : Config) :
    ∃ (job : Job) (outcome : Outcome) (hasErrors : Bool) (work : Option Work),
      job.context = ⟨g, input.toList.toArray⟩ ∧ job.top = top ∧
      parse g rule input config = .ok (job.assemble outcome hasErrors work) ∧
      outcome.Sound job.context job.top 0 ∧
      (hasErrors = false → job.covers outcome = true) := by
  let job : Job := ⟨g, unmarked rule, top, input.toList.toArray, config⟩
  have hj : Job.make g rule input config = .ok job := Job.make_eq_ok hr
  have htop : job.context.Has job.top := hg.rule?_lt hr
  obtain ⟨outcome, hasErrors, work, events, hexecute, hsound, hcovers⟩ := Job.execute_eq_ok hg htop
  exact ⟨job, outcome, hasErrors, work, rfl, rfl, parse_eq_ok hj hexecute, hsound, hcovers⟩

/-- A prepared parse from a rule of a grammar. -/
def Grammar.job (g : Grammar) (rule : String) (top : ClauseId) (input : String) (config : Config) :
    Job := ⟨g, unmarked rule, top, input.toList.toArray, config⟩

/-- **What the phases give to a parse**, from a rule of a well-formed grammar: there is an outcome of
the first phase, and a sound one that the result is put together from. -/
theorem parse_phases {g : Grammar} (hg : g.WellFormed) {rule : String} {top : ClauseId}
    (hr : g.rule? rule = some top) (input : String) (config : Config) :
    ∃ first outcome work, (g.job rule top input config).First first ∧
      outcome.Sound ⟨g, input.toList.toArray⟩ top 0 ∧
      ((g.job rule top input config).covers first = true ∨ config.recovery = false →
        outcome = first) ∧
      parse g rule input config = .ok ((g.job rule top input config).assemble outcome
        (!(g.job rule top input config).covers first) work) := by
  let job := g.job rule top input config
  have hphases := Job.matchPhases_ensures (show job.grammar.WellFormed from hg) (hg.rule?_lt hr)
  obtain ⟨⟨outcome, hasErrors⟩, session, hrun, -, hsound, -⟩ :=
    hphases.run job.start_sound
  obtain ⟨first, hfirst, rfl, hlast⟩ := Job.matchPhases_inv hrun
  obtain ⟨events, hexecute⟩ := Job.execute_of_run hrun
  have hj : Job.make g rule input config = .ok job := Job.make_eq_ok hr
  exact ⟨first, outcome, session.work, hfirst, hsound, hlast, parse_eq_ok hj hexecute⟩

/-- A result is a match if the outcome that it stands for is one. -/
theorem Job.isMatch_assemble (job : Job) {outcome : Outcome} {hasErrors : Bool} {work : Option Work}
    (hsound : outcome.Sound job.context job.top 0) :
    (job.assemble outcome hasErrors work).isMatch = outcome.isMatch := by
  cases outcome with
  | matched node =>
    obtain ⟨info, children, rfl, -, -⟩ := (hsound node rfl).isMatch
    rfl
  | mismatch | pending => rfl

/-! ## Termination -/

/-- Matching any clause at any position gives one result at every depth from that of a run on. -/
theorem matchClause_converges {ctx : Context} (hg : ctx.grammar.WellFormed) {phase : Phase}
    {id : ClauseId} {pos : Nat} {bound : Option ClauseId} {s : Session} (hs : s.Sound ctx)
    (hid : ctx.Has id) (hbound : ∀ other ∈ bound, ctx.Has other) (hpos : pos ≤ ctx.input.size) :
    ∃ result, ∀ depth ≥ ctx.depth, (matchClause ctx depth phase id pos bound).run s = .ok result := by
  have hanswers : Answers ctx id pos (matchClause ctx ctx.depth phase id pos bound) s :=
    matchClause_answers hg hs hid hbound hpos (hg.chain_ends id hid) (ctx.depth_suffices s)
  obtain ⟨outcome, t, hrun, -⟩ := hanswers
  exact ⟨(outcome, t), fun depth hdepth =>
    matchClause_extends ctx hdepth phase id pos bound s (outcome, t) hrun⟩

/-- **Every parse ends.** A run from a rule of a built grammar never breaks off: no loop runs out of
rounds, no recursion out of depth, and no clause or position is missing. Nor does the depth decide
anything: at every depth from that of a run on, matching any clause at any position of the input
gives one and the same result from a given sound session, and a run meets no others. -/
theorem execute_terminates {definitions : List Definition} {g : Grammar}
    (hb : Grammar.build definitions = .ok g) {rule input : String} {config : Config} {job : Job}
    (hj : Job.make g rule input config = .ok job) :
    (∃ p events, job.execute = .ok (p, events) ∧ parse g rule input config = .ok p) ∧
      ∀ phase id pos bound s, job.context.Has id → (∀ other ∈ bound, job.context.Has other) →
        pos ≤ job.input.size → s.Sound job.context →
        ∃ result, ∀ depth ≥ job.context.depth,
          (matchClause job.context depth phase id pos bound).run s = .ok result := by
  obtain ⟨rfl, hr, -, -⟩ := Job.make_inv hj
  have hg := build_wellFormed hb
  constructor
  · obtain ⟨outcome, hasErrors, work, events, hexecute, -⟩ := Job.execute_eq_ok hg (hg.rule?_lt hr)
    exact ⟨_, events, hexecute, parse_eq_ok hj hexecute⟩
  · intro phase id pos bound s hid hbound hpos hs
    exact matchClause_converges hg hs hid hbound hpos

/-- Sums, with left recursion hidden behind an optional mark. -/
def sumDefinitions : List Definition :=
  [⟨"Sum", .choice [.seq [.optional (.lit "x"), .reference "Sum", .lit "+", .reference "Num"],
      .reference "Num"]⟩,
    ⟨"Num", .plus (.range '0' '9')⟩]

/-- The grammar of sums. -/
def sumGrammar : Grammar where
  clauses := #[.literal ['x'], .optional 0, .reference "Sum" 7, .literal ['+'], .reference "Num" 9,
    .seq [1, 2, 3, 4], .reference "Num" 9, .choice [5, 6], .charClass [⟨'0', '9'⟩] false,
    .repeated 8 true]
  rules := [⟨"Sum", false, 7⟩, ⟨"Num", false, 9⟩]

/-- A sum with a character that fits nowhere: the parse ends, and so does matching the top rule from
an empty chart with repairs. -/
theorem execute_terminates_sum :
    Grammar.build sumDefinitions = .ok sumGrammar ∧
      ∃ job, Job.make sumGrammar "Sum" "1+2+x?3" {} = .ok job ∧
        (∃ p events, job.execute = .ok (p, events) ∧
          parse sumGrammar "Sum" "1+2+x?3" {} = .ok p) ∧
        ∃ result, ∀ depth ≥ job.context.depth,
          (matchClause job.context depth .recovery 7 0 none).run (.start 7) = .ok result := by
  have hb : Grammar.build sumDefinitions = .ok sumGrammar := rfl
  let job : Job := ⟨sumGrammar, "Sum", 7, "1+2+x?3".toList.toArray, {}⟩
  have hj : Job.make sumGrammar "Sum" "1+2+x?3" {} = .ok job := Job.make_eq_ok rfl
  have hstart : (Session.start 7).Sound job.context := Session.Sound.start job.context
  obtain ⟨hparse, hmatch⟩ := execute_terminates hb hj
  have htop : job.context.Has 7 := show 7 < 10 by decide
  exact ⟨hb, job, hj, hparse, hmatch .recovery 7 0 none (.start 7) htop nofun (Nat.zero_le _) hstart⟩

end Packrat
