import Packrat.Proofs.Locality
import Packrat.Proofs.Parsing

/-!
# The sessions that a run passes through

What holds at the end of a run says little about its middle, where cells are under evaluation and
lookups come back to them. To speak about the middle, the engine is given a place to break off: `pause`
looks at the session, and a run passes through a session exactly if the run that breaks off there does
so.

* `matchPausing` — the engine with a look at the session before and after whatever can have a step around
  it: every call, every evaluation, and every change of a cell or a version while a match grows. What a
  repair makes stale is seen at the next call or at the end of its evaluation, so no chart goes unseen. A
  look that never breaks off changes nothing (`matchPausing_never`).
* **`Job.Visits job phase s`** — the run passes through the session `s` while it matches in a phase. This
  can be decided by running.
* `Session.Step` — all that a run does to its session at one time.
* **`Invariant`** — a property of the phase and the session that every step keeps. Probes change the phase
  for a while, so it also says what is left of the property while a probe runs and how it comes back.
* `Tracks` — another computation gives what a plain one gives, as long as a property holds;
  `Around.Unnoticed` — what is done around a step makes no difference then.
* **`matchBy_tracks`** — an engine that evaluates in another way, and does unnoticed things besides, tracks
  `matchClause`; `Job.run_matchPhases` a whole run. `matchPausing` is the first such engine.
* **`Job.Visits.holds`** — an invariant holds in every session that a run passes through.
-/

namespace Packrat

/-! ## Looking at the session -/

/-- Breaks off in the sessions that are looked for. -/
def pause (halt : Phase → Session → Bool) (phase : Phase) : MatchM Unit := do
  if halt phase (← get) then throw .exhausted

/-- A look for nothing. -/
def never : Phase → Session → Bool := fun _ _ => false

/-- A computation with a look before and a look after it. -/
def pausing (halt : Phase → Session → Bool) (phase : Phase) {α : Type} (m : MatchM α) : MatchM α := do
  pause halt phase
  let a ← m
  pause halt phase
  return a

/-- **Matching a clause, with a look at the session** wherever the chart may have changed. -/
def matchPausing (ctx : Context) (halt : Phase → Session → Bool) : Nat → Matcher :=
  matchBy ctx (evaluate ctx) fun phase _ step => pausing halt phase step

/-- The phases of a run, with a look at the session wherever the chart may have changed. -/
def Job.matchPhasesPausing (job : Job) (halt : Phase → Session → Bool) : MatchM (Outcome × Bool) :=
  job.matchPhases fun phase => matchPausing job.context halt job.context.depth phase job.top 0 none

/-- **Whether a run passes through a session** while it matches in a phase: the run that breaks off there
breaks off. -/
def Job.Visits (job : Job) (phase : Phase) (s : Session) : Prop :=
  ((job.matchPhasesPausing fun phase' s' => phase' = phase && s' = s).run job.start).isOk = false

instance (job : Job) (phase : Phase) (s : Session) : Decidable (job.Visits phase s) :=
  inferInstanceAs (Decidable (_ = false))

/-! ## Looking for nothing -/

/-- A computation between two looks for nothing. -/
theorem pausing_never {α : Type} (phase : Phase) (m : MatchM α) :
    pausing never phase m = m := by
  have hpause : pause never phase = pure () := rfl
  simp only [pausing, hpause, pure_bind, bind_pure]

/-- A look that never breaks off changes nothing. -/
theorem matchPausing_never (ctx : Context) : matchPausing ctx never = matchClause ctx := by
  simp only [matchPausing, pausing_never]
  rfl

/-! ## What matching gives at any depth -/

section outcomes

variable {ctx : Context} {id : ClauseId} {clause : Clause} {pos : Nat} {bound : Option ClauseId}
  {phase : Phase} {s t : Session} {outcome : Outcome}

/-- Matching keeps a session sound, and gives an answer, at every depth from that of a run on. -/
theorem matchClause_upholds (hg : ctx.grammar.WellFormed) {depth : Nat} (hdepth : ctx.depth ≤ depth) :
    (matchClause ctx depth).Upholds ctx (Session.Sound ctx) := by
  intro phase id pos bound hid hbound hpos
  refine .of_run fun s hs => ?_
  have hanswers : Answers ctx id pos (matchClause ctx depth phase id pos bound) s :=
    matchClause_answers hg hs hid hbound hpos (hg.chain_ends id hid)
      (Nat.lt_of_lt_of_le (ctx.depth_suffices s) hdepth)
  obtain ⟨outcome, t, hrun, ht, -, hsound⟩ := hanswers
  exact ⟨outcome, t, hrun, ht, hsound⟩

/-- Sound sessions stay so whatever evaluating does beside matching. -/
theorem stable_sound (ctx : Context) : Stable ctx (Session.Sound ctx) where
  width h := h.width
  noted _ h := ⟨h.width, h.stored⟩
  tallied _ h := ⟨h.width, h.stored⟩
  bumped hpos h := h.bumped hpos

/-- Every evaluation that gives a result gives a sound one, however deep it may go. A larger depth gives
the same result, and there it is known. -/
theorem evaluate_sound (hg : ctx.grammar.WellFormed) {depth : Nat}
    (hclause : ctx.grammar.clause? id = some clause) (hkind : clause.isReference = false)
    (hbound : ∀ other ∈ bound, ctx.Has other) (hpos : pos ≤ ctx.input.size) (hs : s.Sound ctx)
    (h : (evaluate ctx (matchClause ctx depth) phase id clause pos bound).run s = .ok (outcome, t)) :
    outcome.Sound ctx id pos := by
  have hextends : (matchClause ctx depth).Extends (matchClause ctx (max depth ctx.depth)) :=
    matchClause_extends ctx (Nat.le_max_left depth ctx.depth)
  have hupholds : (matchClause ctx (max depth ctx.depth)).Upholds ctx (Session.Sound ctx) :=
    matchClause_upholds hg (Nat.le_max_right depth ctx.depth)
  have hensures : Ensures False (Session.Sound ctx)
      (evaluate ctx (matchClause ctx (max depth ctx.depth)) phase id clause pos bound)
      (Outcome.Sound ctx id pos) :=
    evaluate_ensures (stable_sound ctx) hupholds hclause hkind (hg.children_lt hclause) hbound hpos
  exact (hensures.of_ok hs (evaluate_extends hextends phase id clause pos bound s _ h)).2

/-- Only references pass on that a match is pending. -/
theorem evaluate_ne_pending {matcher : Matcher} (hkind : clause.isReference = false)
    (h : (evaluate ctx matcher phase id clause pos bound).run s = .ok (outcome, t)) :
    outcome ≠ .pending := by
  have hchar : ∀ accepts, evaluateChar ctx id pos accepts ≠ .pending := by
    intro accepts
    unfold evaluateChar
    split <;> nofun
  cases clause with
  | seq elements =>
    obtain ⟨result, u, -, hpure⟩ := Session.run_bind_eq_ok.1 h
    rcases result with _ | ⟨_ | _⟩ <;> cases hpure <;> nofun
  | choice alternatives =>
    obtain ⟨result, u, -, hpure⟩ := Session.run_bind_eq_ok.1 h
    cases result <;> cases hpure <;> nofun
  | repeated item atLeastOne =>
    obtain ⟨⟨nodes, short⟩, u, -, hpure⟩ := Session.run_bind_eq_ok.1 h
    cases nodes with
    | nil => cases atLeastOne <;> cases hpure <;> nofun
    | cons node rest => cases hpure; nofun
  | optional item =>
    obtain ⟨result, u, -, hpure⟩ := Session.run_bind_eq_ok.1 h
    cases result <;> cases hpure <;> nofun
  | ahead item | notAhead item =>
    obtain ⟨result, u, -, hpure⟩ := Session.run_bind_eq_ok.1 h
    cases result <;> cases hpure <;> nofun
  | reference name target => cases hkind
  | literal text =>
    cases h
    split <;> nofun
  | char c | charClass ranges inverted | anyChar =>
    cases h
    exact hchar _
  | empty =>
    cases h
    nofun

end outcomes

/-! ## Steps -/

/-- A pair that can be evaluated stands for a clause that is no reference. -/
theorem Context.of_mem_pairs {ctx : Context} {id : ClauseId} {pos : Nat} (h : (id, pos) ∈ ctx.pairs) :
    (∃ clause, ctx.grammar.clause? id = some clause ∧ clause.isReference = false) ∧
      pos ≤ ctx.input.size := by
  simp only [pairs, Grammar.bodies, Finset.mem_product, Finset.mem_filter, Finset.mem_range,
    Option.any_eq_true, Bool.not_eq_true'] at h
  exact ⟨h.1.2, by omega⟩

/-- **What a run does to its session at one time**, in a phase: it reports, counts, makes a position
stale, or changes the cell of a pair that can be evaluated. -/
inductive Session.Step (ctx : Context) (phase : Phase) : Session → Session → Prop where
  /-- An event is reported. -/
  | noted (s : Session) (event : Event) : Step ctx phase s { s with trace := event :: s.trace }
  /-- Something is counted. -/
  | tallied (s : Session) (work : Option Work) : Step ctx phase s { s with work }
  /-- A position is made stale. -/
  | bumped {s : Session} {pos : Nat} (hpos : pos ≤ ctx.input.size) : Step ctx phase s (s.bumped pos)
  /-- An evaluation begins, since the cell has no answer. -/
  | entered {s : Session} {id : ClauseId} {pos : Nat} (hpair : (id, pos) ∈ ctx.pairs)
      (hinactive : (s.cellAt id pos).active = false)
      (hreuse : (s.cellAt id pos).reusable? phase (s.versionAt pos) pos ctx.input.size = none) :
      Step ctx phase s (s.entered phase id pos)
  /-- A clause under evaluation turns out to be left recursive. -/
  | flagged {s : Session} {id : ClauseId} {pos : Nat} (hpair : (id, pos) ∈ ctx.pairs)
      (hactive : (s.cellAt id pos).active = true) (hnone : (s.cellAt id pos).result = none) :
      Step ctx phase s (s.flagged id pos)
  /-- The only round of an evaluation ends. -/
  | stored {s : Session} {id : ClauseId} {pos : Nat} {outcome : Outcome} (hpair : (id, pos) ∈ ctx.pairs)
      (hactive : (s.cellAt id pos).active = true) (hsound : outcome.Sound ctx id pos)
      (hsettled : outcome ≠ .pending)
      (hlonger : (s.cellAt id pos).result.any (!outcome.longerThan ·) = false) :
      Step ctx phase s (s.stored id pos outcome)
  /-- A match grows. -/
  | grown {s : Session} {id : ClauseId} {pos : Nat} {outcome : Outcome} (hpair : (id, pos) ∈ ctx.pairs)
      (hactive : (s.cellAt id pos).active = true) (hsound : outcome.Sound ctx id pos)
      (hsettled : outcome ≠ .pending)
      (hlonger : (s.cellAt id pos).result.any (!outcome.longerThan ·) = false) :
      Step ctx phase s (s.grown id pos outcome)
  /-- An evaluation ends. -/
  | left {s : Session} {id : ClauseId} {pos : Nat} (hpair : (id, pos) ∈ ctx.pairs)
      (hactive : (s.cellAt id pos).active = true) (hresult : (s.cellAt id pos).result.isSome = true) :
      Step ctx phase s (s.left phase id pos)

/-- **A property that every step of a run keeps.** It may depend on the phase, and probes match in the
first phase for a while: then it has to hold of the first phase, and once they are over of the second
again. -/
structure Invariant (ctx : Context) (J : Phase → Session → Prop) : Prop where
  /-- It is about sound sessions. -/
  sound : ∀ {phase s}, J phase s → s.Sound ctx
  /-- Every step keeps it. -/
  step : ∀ {phase s t}, J phase s → s.Step ctx phase t → J phase t
  /-- Probes begin. -/
  probed : ∀ {s}, J .recovery s → J .discovery s
  /-- Probes end. -/
  resumed : ∀ {s t}, J .recovery s → s.Continues Everywhere 0 t → J .discovery t → J .recovery t
  /-- It holds before anything was tried. -/
  start : ∀ work, J .discovery (.start ctx.input.size work)
  /-- It holds when the second phase begins, with nothing under evaluation. -/
  restarted : ∀ {s}, (∀ id pos, (s.cellAt id pos).active = false) → J .discovery s → J .recovery s

/-! ## Runs -/

/-- Looking at a session that is not looked for. -/
theorem run_pause {halt : Phase → Session → Bool} {phase : Phase} {s : Session}
    (h : halt phase s = false) : (pause halt phase).run s = .ok ((), s) := by
  have hget : (get : MatchM Session).run s = .ok (s, s) := rfl
  rw [pause, Session.run_bind_of_ok hget, h]
  rfl

/-- A computation between two looks. -/
theorem run_pausing {halt : Phase → Session → Bool} {phase : Phase} {α : Type} {m : MatchM α}
    {s t : Session} {a : α} (hs : halt phase s = false) (ht : halt phase t = false)
    (h : m.run s = .ok (a, t)) : (pausing halt phase m).run s = .ok (a, t) := by
  rw [pausing, Session.run_bind_of_ok (run_pause hs), Session.run_bind_of_ok h,
    Session.run_bind_of_ok (run_pause ht)]
  rfl

/-- Whether another computation tracks a plain one, as long as a property holds: it gives the same, and
the property holds again in the end. -/
def Tracks (J : Session → Prop) {α : Type} (plain other : MatchM α) : Prop :=
  ∀ (s t : Session) (a : α), J s → plain.run s = .ok (a, t) → other.run s = .ok (a, t) ∧ J t

/-- Whether what is done around a step makes no difference between sessions that have a property. -/
def Around.Unnoticed (J : Session → Prop) (around : Around) : Prop :=
  ∀ {α : Type} {m : MatchM α} {s t : Session} {a : α}, J s → m.run s = .ok (a, t) → J t →
    (around α m).run s = .ok (a, t)

/-- Doing nothing goes unnoticed. -/
theorem Around.unnoticed_nothing (J : Session → Prop) : Around.Unnoticed J fun _ step => step :=
  fun _ h _ => h

/-- A step with something around it tracks what the step tracks. -/
theorem Around.Unnoticed.tracks {J : Session → Prop} {around : Around} (haround : around.Unnoticed J)
    {α : Type} {plain other : MatchM α} (h : Tracks J plain other) :
    Tracks J plain (around α other) := by
  intro s t a hs hrun
  obtain ⟨hother, ht⟩ := h s t a hs hrun
  exact ⟨haround hs hother ht, ht⟩

/-- Whether another matcher tracks a plain one in both phases. -/
def Matcher.Tracks (ctx : Context) (J : Phase → Session → Prop) (plain other : Matcher) : Prop :=
  ∀ phase id pos bound, (∀ other ∈ bound, ctx.Has other) →
    Packrat.Tracks (J phase) (plain phase id pos bound) (other phase id pos bound)

section tracks

variable {ctx : Context} {J : Phase → Session → Prop} (hJ : Invariant ctx J) {phase : Phase}
  {id : ClauseId} {pos : Nat}
include hJ

section cells

variable {around : Around} (haround : around.Unnoticed (J phase)) (hpair : (id, pos) ∈ ctx.pairs)
  {evaluation evaluation' : MatchM Outcome} (heval : Tracks (J phase) evaluation evaluation')
  (hgives : ∀ {s t outcome}, J phase s → evaluation.run s = .ok (outcome, t) →
    outcome.Sound ctx id pos ∧ outcome ≠ .pending ∧ s.Continues Everywhere pos t)
include haround hpair heval hgives

/-- Growing a match: the cell is under evaluation throughout, and has a result in the end. -/
theorem growSeed_tracks {fuel : Nat} {s t : Session} (hs : J phase s)
    (hactive : (s.cellAt id pos).active = true)
    (h : (growSeed evaluation id pos fuel).run s = .ok ((), t)) :
    (growSeed evaluation' id pos fuel around).run s = .ok ((), t) ∧ J phase t ∧
      (t.cellAt id pos).active = true ∧ (t.cellAt id pos).result.isSome = true := by
  induction fuel generalizing s with
  | zero => cases h
  | succ fuel ih =>
    obtain ⟨outcome, u, hrun, hlt, hcases⟩ := growSeed_eq_ok h
    have hcounted : J phase s.counted := hJ.step hs (.tallied s _)
    obtain ⟨hother, hu⟩ := haround.tracks heval _ _ _ hcounted hrun
    obtain ⟨hsound, hsettled, hgoes⟩ := hgives hcounted hrun
    have hstill : (u.cellAt id pos).active = true := (hgoes.evolves.active trivial).trans hactive
    have htally : (Session.tally fun work => { work with evaluations := work.evaluations + 1 }).run s =
        .ok ((), s.counted) := rfl
    rw [growSeed, Session.run_bind_of_ok htally, Session.run_bind_of_ok hother,
      Session.run_bind_of_ok (Session.run_cell hlt)]
    obtain ⟨hstop, rfl⟩ | ⟨hlonger, ⟨hplain, rfl⟩ | ⟨hrecursive, hrest⟩⟩ := hcases
    · rw [if_pos hstop]
      refine ⟨rfl, hu, hstill, ?_⟩
      obtain ⟨old, hold, -⟩ := (Option.any_eq_true _ _).1 hstop
      rw [hold]
      rfl
    · rw [if_neg (Bool.eq_false_iff.1 hlonger), if_pos (by simp [hplain])]
      have hstored := hJ.step hu (.stored hpair hstill hsound hsettled hlonger)
      refine ⟨haround hu Session.run_setCell hstored, hstored, ?_⟩
      rw [Session.stored, Session.cellAt_withCell_self hlt]
      exact ⟨hstill, rfl⟩
    · rw [if_neg (Bool.eq_false_iff.1 hlonger), if_neg (by simp [hrecursive])]
      have hbumped := hJ.step hu (.bumped (Context.of_mem_pairs hpair).2)
      have hgrown := hJ.step hu (.grown hpair hstill hsound hsettled hlonger)
      have hunder : ((u.grown id pos outcome).cellAt id pos).active = true := by
        rw [Session.cellAt_grown hlt, if_pos ⟨rfl, rfl⟩]
        exact hstill
      obtain ⟨hnext, hend⟩ := ih hgrown hunder hrest
      refine ⟨?_, hend⟩
      rw [Session.run_bind_of_ok (haround hu (Session.run_bump hlt) hbumped)]
      exact (Session.run_bind_of_ok (haround hbumped Session.run_storeGrown hgrown)).trans hnext

/-- Matching through a cell. -/
theorem matchThrough_tracks :
    Tracks (J phase) (matchThrough ctx evaluation phase id pos)
      (matchThrough ctx evaluation' phase id pos around) := by
  intro s t outcome hs h
  obtain ⟨hlt, hcases⟩ := matchThrough_eq_ok h
  rw [matchThrough, Session.run_bind_of_ok (Session.run_version hlt),
    Session.run_bind_of_ok (Session.run_cell hlt)]
  obtain ⟨hreuse, rfl⟩ | ⟨hreuse, ⟨hactive, hreenter⟩ | ⟨hinactive, u, hgrow, hlt', rfl, rfl⟩⟩ := hcases
  · rw [hreuse]
    exact ⟨rfl, hJ.step hs (.tallied s _)⟩
  · rw [hreuse]
    simp only [hactive, if_true]
    refine ⟨hreenter, ?_⟩
    obtain ⟨-, -, rfl⟩ | ⟨-, ⟨-, rfl⟩ | ⟨hnone, rfl⟩⟩ := reenter_eq_ok hreenter
    · exact hs
    · exact hs
    · exact hJ.step hs (.flagged hpair hactive hnone)
  · rw [hreuse]
    simp only [hinactive, Bool.false_eq_true, if_false]
    have hentered := hJ.step hs (.entered hpair hinactive hreuse)
    have hunder : ((s.entered phase id pos).cellAt id pos).active = true := by
      rw [Session.entered, Session.cellAt_withCell_self hlt, Cell.active_enter]
    obtain ⟨hother, hu, hstill, hresult⟩ :=
      growSeed_tracks hJ haround hpair heval hgives hentered hunder hgrow
    refine ⟨?_, hJ.step hu (.left hpair hstill hresult)⟩
    refine (Session.run_bind_of_ok Session.run_setCell).trans ((Session.run_bind_of_ok hother).trans ?_)
    rw [Session.run_bind_of_ok (Session.run_cell hlt'), Session.run_bind_of_ok (Session.run_version hlt'),
      Session.run_bind_of_ok Session.run_setCell]
    rfl

end cells

/-- Evaluating, if matching is tracked in both phases. A probe is one call in the first phase, after which
the property of the second phase comes back. -/
theorem tracks_course (hg : ctx.grammar.WellFormed) (start : Nat) {depth : Nat} {other : Matcher}
    (hmatcher : (matchClause ctx depth).Tracks ctx J other) :
    Course ctx.Has start phase (fun plain : Bool => if plain then matchClause ctx depth else other)
      fun m => Tracks (J phase) (m true) (m false) where
  pure a := by
    intro s t b hs h
    cases h
    exact ⟨rfl, hs⟩
  throw e := by
    intro s t b hs h
    cases h
  bind := by
    intro α β m f hm hf s t b hs h
    obtain ⟨a, u, hrun, h⟩ := Session.run_bind_eq_ok.1 h
    obtain ⟨hother, hu⟩ := hm s u a hs hrun
    obtain ⟨hnext, ht⟩ := hf a u t b hu h
    exact ⟨(Session.run_bind_of_ok hother).trans hnext, ht⟩
  note _ event := by
    intro s t b hs h
    cases h
    exact ⟨rfl, hJ.step hs (.noted s event)⟩
  repaired := by
    intro _ place hplace s t b hs h
    obtain ⟨hlt, rfl⟩ := recordRepair_eq_ok h
    have hpos : place ≤ ctx.input.size := by
      rw [(hJ.sound hs).width] at hlt
      omega
    exact ⟨h, hJ.step (hJ.step hs (.bumped hpos)) (.tallied _ _)⟩
  consulted := by
    intro other place bound _ hbound _
    exact hmatcher _ _ _ _ hbound
  probed := by
    rintro rfl other place _ _ s t outcome hs h
    have hnone : ∀ other ∈ (none : Option ClauseId), ctx.Has other := nofun
    obtain ⟨hother, ht⟩ := hmatcher _ _ _ _ hnone s t outcome (hJ.probed hs) h
    have hgoes := (matchClause_continues hg hnone h).mono (Nat.zero_le place) fun hc => hc
    exact ⟨hother, hJ.resumed hs hgoes ht⟩

/-- Evaluating a clause with a matcher that tracks. -/
theorem evaluate_tracks (hg : ctx.grammar.WellFormed) {depth : Nat} {other : Matcher}
    (hmatcher : (matchClause ctx depth).Tracks ctx J other) {clause : Clause}
    (hclause : ctx.grammar.clause? id = some clause) {bound : Option ClauseId}
    (hbound : ∀ other ∈ bound, ctx.Has other) :
    Tracks (J phase) (evaluate ctx (matchClause ctx depth) phase id clause pos bound)
      (evaluate ctx other phase id clause pos bound) :=
  (tracks_course hJ hg pos hmatcher).evaluate id (hg.children_lt hclause) hbound (Nat.le_refl pos)

/-- One level of matching, if evaluating the clause is tracked. -/
theorem matchWith_tracks (hg : ctx.grammar.WellFormed) {around : Around}
    (haround : around.Unnoticed (J phase)) {depth : Nat} {bound : Option ClauseId}
    (hbound : ∀ other ∈ bound, ctx.Has other) {evaluation : Clause → MatchM Outcome}
    (heval : ∀ {clause}, ctx.grammar.clause? id = some clause → pos ≤ ctx.input.size →
      Tracks (J phase) (evaluate ctx (matchClause ctx depth) phase id clause pos bound)
        (evaluation clause)) :
    Tracks (J phase) (matchClause ctx (depth + 1) phase id pos bound)
      (matchWith ctx evaluation phase id pos around) := by
  intro s t outcome hs h
  obtain ⟨hbeyond, rfl, rfl⟩ | ⟨hpos, clause, hclause, hcases⟩ := matchWith_eq_ok h
  · rw [matchWith, if_pos hbeyond]
    exact ⟨rfl, hs⟩
  rw [matchWith_of_clause hpos hclause]
  obtain ⟨hkind, h⟩ | ⟨hkind, h⟩ := hcases
  · rw [hkind]
    exact heval hclause hpos s t outcome hs h
  · rw [hkind]
    have hcontinues : ∀ {s t outcome},
        (evaluate ctx (matchClause ctx depth) phase id clause pos bound).run s = .ok (outcome, t) →
        s.Continues Everywhere pos t :=
      (continuesFrom_course ctx pos phase (matchClause_continues hg)).evaluate id
        (hg.children_lt hclause) hbound (Nat.le_refl pos)
    refine matchThrough_tracks hJ haround (Context.mem_pairs hclause hkind hpos) (heval hclause hpos) ?_
      s t outcome hs h
    intro s t outcome hs h
    exact ⟨evaluate_sound hg hclause hkind hbound hpos (hJ.sound hs) h, evaluate_ne_pending hkind h,
      hcontinues h⟩

/-- **Another engine tracks `matchClause`** as long as the invariant holds, if it evaluates to the same with
a matcher that tracks, and what it does besides goes unnoticed. The induction is on the depth. -/
theorem matchBy_tracks (hg : ctx.grammar.WellFormed) {evaluator : Matcher → Evaluator}
    {around : Phase → Around} (haround : ∀ phase, (around phase).Unnoticed (J phase))
    (hevaluator : ∀ {depth other}, (matchClause ctx depth).Tracks ctx J other →
      ∀ {phase id clause pos bound}, ctx.grammar.clause? id = some clause →
        (∀ other ∈ bound, ctx.Has other) → pos ≤ ctx.input.size →
        Tracks (J phase) (evaluate ctx (matchClause ctx depth) phase id clause pos bound)
          (evaluator other phase id clause pos bound)) :
    ∀ depth, (matchClause ctx depth).Tracks ctx J (matchBy ctx evaluator around depth)
  | 0 => by
    intro phase id pos bound _ s t outcome hs h
    cases h
  | depth + 1 => by
    intro phase id pos bound hbound
    have htracks := matchBy_tracks hg haround hevaluator depth
    refine Around.Unnoticed.tracks (haround phase) (matchWith_tracks hJ hg (haround phase) hbound ?_)
    exact fun hclause hpos => hevaluator htracks hclause hbound hpos

/-- **Matching a clause**, as long as the invariant holds: looking at the session makes no difference, and
the invariant holds again in the end. -/
theorem matchPausing_tracks (hg : ctx.grammar.WellFormed) {halt : Phase → Session → Bool}
    (hhalt : ∀ phase s, J phase s → halt phase s = false) (depth : Nat) :
    (matchClause ctx depth).Tracks ctx J (matchPausing ctx halt depth) := by
  have hlook : ∀ phase, Around.Unnoticed (J phase) fun _ step => pausing halt phase step :=
    fun phase _ _ _ _ _ hs hrun ht => run_pausing (hhalt phase _ hs) (hhalt phase _ ht) hrun
  exact matchBy_tracks hJ hg hlook (fun hmatcher _ _ _ _ _ hclause hbound _ =>
    evaluate_tracks hJ hg hmatcher hclause hbound) depth

end tracks

/-- Matching a clause keeps every invariant. -/
theorem Invariant.matchClause {ctx : Context} {J : Phase → Session → Prop} (hJ : Invariant ctx J)
    (hg : ctx.grammar.WellFormed) {depth : Nat} {phase : Phase} {id : ClauseId} {pos : Nat}
    {bound : Option ClauseId} (hbound : ∀ other ∈ bound, ctx.Has other) {s t : Session}
    {outcome : Outcome} (hs : J phase s)
    (h : (Packrat.matchClause ctx depth phase id pos bound).run s = .ok (outcome, t)) : J phase t := by
  have hnever : ∀ phase s, J phase s → never phase s = false := fun _ _ _ => rfl
  exact (matchPausing_tracks hJ hg hnever depth _ _ _ _ hbound s t outcome hs h).2

/-! ## Every session of a run -/

/-- At the start of a parse nothing is under evaluation. -/
theorem Job.inactive_opening (job : Job) (id : ClauseId) (pos : Nat) :
    (job.opening.cellAt id pos).active = false := by
  have hempty : job.start.cellAt id pos = {} := Session.cellAt_start _
  show (job.start.cellAt id pos).active = false
  rw [hempty]

/-- The phases of a run, with another way to match that tracks as long as an invariant holds. -/
theorem Job.run_matchPhases {job : Job} (hg : job.grammar.WellFormed) {J : Phase → Session → Prop}
    (hJ : Invariant job.context J) {matchTop : Phase → MatchM Outcome}
    (hmatch : ∀ phase, Tracks (J phase) (job.matchTop phase) (matchTop phase))
    {result : Outcome × Bool} {last : Session}
    (hplain : job.matchPhases.run job.start = .ok (result, last)) :
    (job.matchPhases matchTop).run job.start = .ok (result, last) := by
  have hnone : ∀ other ∈ (none : Option ClauseId), job.context.Has other := nofun
  have hopening : J .discovery job.opening := hJ.step (hJ.start job.config.counters) (.noted _ _)
  rw [matchPhases, Session.run_bind_of_ok Session.run_note] at hplain
  obtain ⟨first, t, hfirst, hplain⟩ := Session.run_bind_eq_ok.1 hplain
  obtain ⟨hother, ht⟩ := hmatch _ _ _ _ hopening hfirst
  rw [matchPhases, Session.run_bind_of_ok Session.run_note]
  refine (Session.run_bind_of_ok hother).trans ?_
  by_cases hcovers : job.covers first = true
  · rw [if_pos hcovers] at hplain ⊢
    exact hplain
  rw [if_neg hcovers] at hplain ⊢
  by_cases hrecovery : (!job.config.recovery) = true
  · rw [if_pos hrecovery] at hplain ⊢
    exact hplain
  rw [if_neg hrecovery] at hplain ⊢
  rw [Session.run_bind_of_ok Session.run_note] at hplain ⊢
  obtain ⟨second, u, hsecond, hplain⟩ := Session.run_bind_eq_ok.1 hplain
  have hquiet : ∀ id pos, (t.cellAt id pos).active = false := fun id pos =>
    ((matchClause_continues hg hnone hfirst).evolves.active trivial).trans (job.inactive_opening id pos)
  have hnoted := hJ.step (hJ.restarted hquiet ht) (.noted t (.recovery job.topRule first.len?))
  obtain ⟨hlast, -⟩ := hmatch _ _ _ _ hnoted hsecond
  exact (Session.run_bind_of_ok hlast).trans hplain

/-- **An invariant holds in every session that a run passes through.** Otherwise the run that breaks off
there would not break off. -/
theorem Job.Visits.holds {job : Job} (hg : job.grammar.WellFormed) (htop : job.context.Has job.top)
    {J : Phase → Session → Prop} (hJ : Invariant job.context J) {phase : Phase} {s : Session}
    (h : job.Visits phase s) : J phase s := by
  by_contra hno
  have hhalt : ∀ phase' s', J phase' s' → (decide (phase' = phase) && decide (s' = s)) = false := by
    intro phase' s' hs'
    simp only [Bool.and_eq_false_iff, decide_eq_false_iff_not]
    by_contra hboth
    push Not at hboth
    obtain ⟨rfl, rfl⟩ := hboth
    exact hno hs'
  obtain ⟨result, last, hplain, -⟩ := (matchPhases_ensures hg htop).run (start_sound job)
  have hends : (job.matchPhasesPausing fun phase' s' => phase' = phase && s' = s).run job.start =
      .ok (result, last) :=
    run_matchPhases hg hJ (fun _ => matchPausing_tracks hJ hg hhalt _ _ _ _ _ nofun) hplain
  rw [Job.Visits, hends] at h
  cases h

end Packrat
