import Packrat.Proofs.Retention
import Packrat.Proofs.TidyCharts

/-!
# Left recursion and repairs

A clause that is under evaluation and has no match yet answers a lookup with `pending`, which never asks
for a repair. But the answer comes from the cell only if the chart does not give one first, and the chart
may: a growth step stores its result together with the new version of the position, and if that result
is no match, the next lookup takes it for a settled mismatch.

* `Session.Seedless` — a clause is under evaluation at a position and has no match so far.
* `Session.Separates` — the invariant: during recovery, a seedless clause whose cell could answer from
  the chart has had a growth step without a match, and the step was reported.
* `Session.Waits` — the sessions in which a seedless clause answers as it should;
  `Session.Waits.lookup` — it does, and goes on to.
* **`seedless_lookups_pend`** — as long as no growth step without a match was reported for a seedless
  clause, every lookup of it, direct or through references, is pending, and no sequence is repaired for it.
* **`seedless_lookup_mismatches`** — after such a step a lookup can give a mismatch, and a sequence that
  begins with a reference to the clause is repaired.
-/

namespace Packrat

/-! ## Clauses without a match so far -/

/-- Whether a clause is under evaluation at a position and has no match so far. -/
structure Session.Seedless (s : Session) (id : ClauseId) (pos : Nat) : Prop where
  /-- It is under evaluation. -/
  active : (s.cellAt id pos).active = true
  /-- There is no match. -/
  unmatched : (s.cellAt id pos).result.any Outcome.isMatch = false

/-- **The invariant of a session in a phase.** -/
structure Session.Separates (ctx : Context) (phase : Phase) (s : Session) : Prop
    extends Session.Tidy ctx s where
  /-- Evaluations that ended during recovery have stored a result. -/
  finished : ∀ {id pos}, (s.cellAt id pos).active = false → (s.cellAt id pos).phase = .recovery →
    (s.cellAt id pos).result.isSome = true
  /-- During recovery, a seedless clause with a fresh cell of this phase has had a growth step without a
  match. -/
  reported : phase = .recovery → ∀ {id pos}, s.Seedless id pos → (s.cellAt id pos).phase = .recovery →
    (s.cellAt id pos).version = s.versionAt pos → Event.seedGrown id pos none ∈ s.trace

/-- A fresh result of the phase is reused. -/
theorem Cell.reusable?_of_fresh {cell : Cell} {phase : Phase} {version pos inputLen : Nat}
    {outcome : Outcome} (hresult : cell.result = some outcome) (hphase : cell.phase = phase)
    (hversion : cell.version = version) : cell.reusable? phase version pos inputLen = some outcome := by
  simp [Cell.reusable?, Cell.mustRetry, hresult, hphase, hversion, Option.filter]

/-- Only a fresh result of the phase is reused, unless it is a match. -/
theorem Cell.fresh_of_reusable? {cell : Cell} {phase : Phase} {version pos inputLen : Nat}
    {outcome : Outcome} (hunmatched : cell.result.any Outcome.isMatch = false)
    (h : cell.reusable? phase version pos inputLen = some outcome) :
    cell.phase = phase ∧ cell.version = version := by
  obtain ⟨hresult, hcondition⟩ := Option.filter_eq_some_iff.1 h
  have hincomplete : outcome.isComplete = false := by
    rw [hresult] at hunmatched
    cases outcome with
    | matched node => cases hunmatched
    | mismatch | pending => rfl
  simp only [hincomplete, Bool.false_and, Bool.false_or, Bool.and_eq_true, beq_iff_eq] at hcondition
  exact ⟨hcondition.2, hcondition.1.1⟩

/-! ## The invariant -/

namespace Session.Separates

variable {ctx : Context} {phase : Phase} {s : Session} {id : ClauseId} {pos : Nat}

/-- Reporting and counting. -/
theorem of_chart (h : s.Separates ctx phase) (work : Option Work) {trace : List Event}
    (htrace : s.trace ⊆ trace) : ({ s with work, trace } : Session).Separates ctx phase where
  toTidy := h.toTidy.of_chart work trace
  finished := h.finished
  reported hphase _ _ hseedless htag hversion :=
    htrace (h.reported hphase ⟨hseedless.active, hseedless.unmatched⟩ htag hversion)

/-- Making a position stale: no cell of it is fresh any more. -/
theorem bumped (h : s.Separates ctx phase) (hpos : pos ≤ ctx.input.size) :
    (s.bumped pos).Separates ctx phase where
  toTidy := h.toTidy.bumped hpos
  finished := by
    intro other place
    rw [cellAt_bumped (h.sound.lt_width hpos)]
    exact h.finished
  reported := by
    intro hphase other place hseedless
    have hlt := h.sound.lt_width hpos
    have hbefore : s.Seedless other place := by
      constructor
      · simpa only [cellAt_bumped hlt] using hseedless.active
      · simpa only [cellAt_bumped hlt] using hseedless.unmatched
    rw [cellAt_bumped hlt, versionAt_bumped hlt]
    intro htag hversion
    split at hversion
    · rename_i heq
      have hold : (s.cellAt other place).version ≤ s.versionAt place := h.version_le
      rw [heq] at hold hversion
      omega
    · exact h.reported hphase hbefore htag hversion

/-- Storing a cell that is what it should be. -/
theorem withCell (h : s.Separates ctx phase) {cell : Cell} (hpos : pos ≤ ctx.input.size)
    (htidy : (s.withCell id pos cell).Tidy ctx)
    (hfinished : cell.active = false → cell.phase = .recovery → cell.result.isSome = true)
    (hreported : phase = .recovery → cell.active = true → cell.result.any Outcome.isMatch = false →
      cell.phase = .recovery → cell.version = s.versionAt pos → Event.seedGrown id pos none ∈ s.trace) :
    (s.withCell id pos cell).Separates ctx phase := by
  have hlt := h.sound.lt_width hpos
  refine { toTidy := htidy, finished := ?_, reported := ?_ }
  · intro other place
    rw [cellAt_withCell hlt]
    split
    · exact hfinished
    · exact h.finished
  · intro hphase other place hseedless
    obtain ⟨hactive, hunmatched⟩ := hseedless
    rw [cellAt_withCell hlt] at hactive hunmatched
    rw [cellAt_withCell hlt, versionAt_withCell hlt]
    split at hactive
    · rename_i heq
      rw [if_pos heq] at hunmatched ⊢
      obtain ⟨rfl, rfl⟩ := heq
      exact hreported hphase hactive hunmatched
    · rename_i hne
      rw [if_neg hne] at hunmatched ⊢
      exact h.reported hphase ⟨hactive, hunmatched⟩

/-- Storing a cell that is under evaluation. -/
theorem withActive (h : s.Separates ctx phase) {cell : Cell} (hpos : pos ≤ ctx.input.size)
    (htidy : (s.withCell id pos cell).Tidy ctx) (hactive : cell.active = true)
    (hreported : phase = .recovery → cell.result.any Outcome.isMatch = false → cell.phase = .recovery →
      cell.version = s.versionAt pos → Event.seedGrown id pos none ∈ s.trace) :
    (s.withCell id pos cell).Separates ctx phase := by
  refine h.withCell hpos htidy (fun hno => ?_) fun hphase _ => hreported hphase
  rw [hactive] at hno
  cases hno

end Session.Separates

/-- What a cell under evaluation has of its own stays while other clauses are matched, and a match that
it lacks in the end was not there before. -/
theorem Cell.Kept.own {before after : Cell} (h : before.Kept after) :
    after.version = before.version ∧ after.phase = before.phase ∧
      (after.result.any Outcome.isMatch = false → before.result.any Outcome.isMatch = false) := by
  rcases h with rfl | ⟨hnone, rfl⟩
  · exact ⟨rfl, rfl, id⟩
  · refine ⟨rfl, rfl, fun _ => ?_⟩
    rw [hnone]
    rfl

/-- An outcome that makes progress and is no match is the first one. -/
theorem Outcome.none_of_progress {outcome : Outcome} {result : Option Outcome}
    (hunmatched : outcome.isMatch = false) (h : result.any (!outcome.longerThan ·) = false) :
    result = none := by
  cases result with
  | none => rfl
  | some old =>
    have hlonger : outcome.longerThan old = true := by simpa using h
    obtain ⟨node, rfl⟩ := Outcome.exists_node_of_longerThan hlonger
    cases hunmatched

/-- **Every step keeps the two apart.** A growth step without a match is the only one that leaves a
seedless clause with a fresh cell, and it reports itself. -/
theorem separates_invariant (ctx : Context) : Invariant ctx fun phase s => s.Separates ctx phase where
  sound h := h.sound
  step := by
    intro phase s t h hstep
    have htidy : t.Tidy ctx := (tidy_invariant ctx).step h.toTidy hstep
    cases hstep with
    | noted event => exact h.of_chart _ (List.subset_cons_self _ _)
    | tallied work => exact h.of_chart work fun _ hevent => hevent
    | bumped hpos => exact h.bumped hpos
    | @entered id pos hpair hinactive hreuse =>
      refine h.withActive (Context.of_mem_pairs hpair).2 htidy (Cell.active_enter _ phase _) ?_
      -- A fresh cell of this phase would have answered.
      intro hphase _ htag hversion
      have htag' : (s.cellAt id pos).phase = .recovery := by
        unfold Cell.enter at htag
        split at htag <;> exact htag
      rw [Cell.version_enter] at hversion
      obtain ⟨outcome, hresult⟩ := Option.isSome_iff_exists.1 (h.finished hinactive htag')
      rw [Cell.reusable?_of_fresh hresult (htag'.trans hphase.symm) hversion] at hreuse
      cases hreuse
    | flagged hpair hactive hnone =>
      refine h.withActive (Context.of_mem_pairs hpair).2 htidy hactive fun hphase _ htag hversion => ?_
      exact h.reported hphase ⟨hactive, by rw [hnone]; rfl⟩ htag hversion
    | stored hpair hactive hsound hsettled hlonger =>
      refine h.withActive (Context.of_mem_pairs hpair).2 htidy hactive ?_
      intro hphase hunmatched htag hversion
      have hnone := Outcome.none_of_progress hunmatched hlonger
      exact h.reported hphase ⟨hactive, by rw [hnone]; rfl⟩ htag hversion
    | @grown id pos outcome hpair hactive hsound hsettled hlonger =>
      have hpos := (Context.of_mem_pairs hpair).2
      have hnoted := (h.bumped hpos).of_chart (s.work.map fun work =>
        { work with expansions := work.expansions + 1 })
        (List.subset_cons_self (Event.seedGrown id pos outcome.len?) s.trace)
      refine hnoted.withActive hpos htidy hactive fun _ hunmatched _ _ => ?_
      have hlen : outcome.len? = none := by
        cases outcome with
        | matched node => cases hunmatched
        | mismatch | pending => rfl
      rw [hlen]
      exact List.mem_cons_self
    | left hpair hactive hresult =>
      refine h.withCell (Context.of_mem_pairs hpair).2 htidy (fun _ _ => ?_) ?_
      · rw [Cell.leave, Option.isSome_map]
        exact hresult
      · intro _ hno
        cases hno
  probed h := { h with reported := fun hphase => absurd hphase (by decide) }
  resumed := by
    intro s t hs hgoes ht
    refine { ht with reported := ?_ }
    intro _ id pos hseedless htag hversion
    have hactive : (s.cellAt id pos).active = true :=
      (hgoes.evolves.active trivial).symm.trans hseedless.active
    obtain ⟨hsame, htag', hunmatched⟩ := (hgoes.evolves.kept trivial hactive).own
    have hrise := hgoes.version pos
    have hold : (s.cellAt id pos).version ≤ s.versionAt pos := hs.version_le
    have hfresh : (s.cellAt id pos).version = s.versionAt pos := by omega
    exact hgoes.trace.subset
      (hs.reported rfl ⟨hactive, hunmatched hseedless.unmatched⟩ (htag'.symm.trans htag) hfresh)
  start work := by
    refine { toTidy := .start ctx work, finished := ?_, reported := fun hphase => absurd hphase (by decide) }
    intro id pos _ htag
    rw [Session.cellAt_start] at htag
    cases htag
  restarted := by
    intro s hquiet h
    refine { h with reported := ?_ }
    intro _ id pos hseedless
    have hactive := hseedless.active
    rw [hquiet] at hactive
    cases hactive

/-! ## Lookups -/

/-- **The sessions in which a seedless clause answers as it should**: during recovery, without a growth
step that reported no match. -/
structure Session.Waits (ctx : Context) (id : ClauseId) (pos : Nat) (s : Session) : Prop
    extends Session.Separates ctx .recovery s, Session.Seedless s id pos where
  /-- No growth step without a match was reported. -/
  unreported : Event.seedGrown id pos none ∉ s.trace

namespace Session.Waits

variable {ctx : Context} {id body : ClauseId} {pos : Nat} {bound : Option ClauseId} {s : Session}

/-- The position is one of the input, or its end: a clause under evaluation has an entry. -/
theorem pos_le (h : s.Waits ctx id pos) : pos ≤ ctx.input.size := by
  have hactive := h.active
  rw [cellAt_eq_getD] at hactive
  cases hentry : s.held? id pos with
  | none =>
    rw [hentry] at hactive
    cases hactive
  | some cell => exact (h.fits hentry).pos_le

/-- The chart has no answer. -/
theorem reusable?_eq_none (h : s.Waits ctx id pos) :
    (s.cellAt id pos).reusable? .recovery (s.versionAt pos) pos ctx.input.size = none := by
  cases hreuse : (s.cellAt id pos).reusable? .recovery (s.versionAt pos) pos ctx.input.size with
  | none => rfl
  | some outcome =>
    obtain ⟨htag, hversion⟩ := Cell.fresh_of_reusable? h.unmatched hreuse
    exact absurd (h.reported rfl h.toSeedless htag hversion) h.unreported

/-- Flagging the clause as left recursive gives it no match and reports nothing. -/
theorem flagged (h : s.Waits ctx id pos) (hpair : (id, pos) ∈ ctx.pairs)
    (hnone : (s.cellAt id pos).result = none) : (s.flagged id pos).Waits ctx id pos := by
  have hlt := h.sound.lt_width h.pos_le
  refine { toSeparates := (separates_invariant ctx).step h.toSeparates (.flagged hpair h.active hnone),
           active := ?_, unmatched := ?_, unreported := h.unreported }
  · rw [Session.flagged, cellAt_withCell_self hlt]
    exact h.active
  · rw [Session.flagged, cellAt_withCell_self hlt]
    rfl

/-- A lookup through the cell is pending, and so is every one after it. -/
theorem matchThrough (h : s.Waits ctx id pos) (hpair : (id, pos) ∈ ctx.pairs)
    (evaluation : MatchM Outcome) :
    ∃ t, (Packrat.matchThrough ctx evaluation .recovery id pos).run s = .ok (.pending, t) ∧
      t.Waits ctx id pos ∧ t.trace = s.trace := by
  have hlt := h.sound.lt_width h.pos_le
  rw [Packrat.matchThrough, run_bind_of_ok (run_version hlt), run_bind_of_ok (run_cell hlt),
    h.reusable?_eq_none]
  simp only [h.active, if_true]
  have hunmatched := h.unmatched
  unfold reenter
  split
  · rename_i node hresult
    rw [hresult] at hunmatched
    cases hunmatched
  · exact ⟨s, rfl, h, rfl⟩
  · rename_i hnone
    exact ⟨s.flagged id pos, rfl, h.flagged hpair hnone, rfl⟩

/-- **A lookup of a seedless clause**, direct or through a chain of references, is pending, and so is
every one after it. The induction is along the chain. -/
theorem lookup (h : s.Waits ctx body pos) (hleads : ctx.grammar.LeadsTo id body)
    (bound : Option ClauseId) :
    ∃ depth t, (matchClause ctx depth .recovery id pos bound).run s = .ok (.pending, t) ∧
      t.Waits ctx body pos ∧ t.trace = s.trace := by
  induction hleads with
  | @here id clause hclause hkind =>
    obtain ⟨t, hrun, ht⟩ := h.matchThrough (Context.mem_pairs hclause hkind h.pos_le)
      (evaluate ctx (matchClause ctx 0) .recovery id clause pos bound)
    refine ⟨1, t, ?_, ht⟩
    rw [matchClause_succ, matchWith_of_clause h.pos_le hclause, hkind]
    exact hrun
  | through hclause _ ih =>
    obtain ⟨depth, t, hrun, ht⟩ := ih h
    refine ⟨depth + 1, t, ?_, ht⟩
    rw [matchClause_succ, matchWith_of_clause h.pos_le hclause]
    exact run_bind_of_ok hrun

/-- The same at every depth from that of a run on. -/
theorem lookup_deep (hg : ctx.grammar.WellFormed) (h : s.Waits ctx body pos)
    (hleads : ctx.grammar.LeadsTo id body) (hbound : ∀ other ∈ bound, ctx.Has other) :
    ∃ t, (∀ depth ≥ ctx.depth, (matchClause ctx depth .recovery id pos bound).run s = .ok (.pending, t)) ∧
      t.Waits ctx body pos ∧ t.trace = s.trace := by
  have hid : ctx.Has id := by
    cases hleads with
    | here hclause _ => exact (Array.getElem?_eq_some_iff.1 hclause).1
    | through hclause _ => exact (Array.getElem?_eq_some_iff.1 hclause).1
  obtain ⟨depth, t, hrun, ht⟩ := h.lookup hleads bound
  obtain ⟨result, hresult⟩ := matchClause_converges hg h.sound hid hbound h.pos_le
  refine ⟨t, fun deeper hdeeper => ?_, ht⟩
  rw [hresult deeper hdeeper, matchClause_result_unique hrun (hresult deeper hdeeper)]

/-- Lookups one after another. -/
theorem lookups (hg : ctx.grammar.WellFormed) (items : List (ClauseId × Option ClauseId))
    (hitems : ∀ item ∈ items,
      ctx.grammar.LeadsTo item.1 body ∧ ∀ other ∈ item.2, ctx.Has other)
    (h : s.Waits ctx body pos) :
    ∃ t, (∀ depth ≥ ctx.depth,
        (items.mapM fun item => matchClause ctx depth .recovery item.1 pos item.2).run s =
          .ok (items.map fun _ => .pending, t)) ∧
      t.Waits ctx body pos ∧ t.trace = s.trace := by
  induction items generalizing s with
  | nil => exact ⟨s, fun _ _ => rfl, h, rfl⟩
  | cons item rest ih =>
    obtain ⟨hleads, hbound⟩ := hitems item List.mem_cons_self
    obtain ⟨u, hfirst, hu, hsame⟩ := h.lookup_deep hg hleads hbound
    obtain ⟨t, hrest, ht, htrace⟩ :=
      ih (fun other hother => hitems other (List.mem_cons_of_mem item hother)) hu
    refine ⟨t, fun depth hdepth => ?_, ht, htrace.trans hsame⟩
    rw [List.mapM_cons, run_bind_of_ok (hfirst depth hdepth), run_bind_of_ok (hrest depth hdepth)]
    rfl

end Session.Waits

/-- A sequence whose element is pending fails on the spot. -/
theorem evaluateElements_pending {ctx : Context} {matcher : Matcher} {phase : Phase}
    {id element : ClauseId} {rest : List ClauseId} {pos : Nat} {bound : Option ClauseId} {s t : Session}
    (h : (matcher phase element pos (elementBound phase rest bound)).run s = .ok (.pending, t)) :
    (evaluateElements ctx matcher phase id bound (element :: rest) pos).run s = .ok (none, t) := by
  rw [evaluateElements, Session.run_bind_of_ok h]
  simp only [Outcome.isGrown, Bool.or_true, if_true]
  rfl

/-! ## Every session of recovery -/

/-- **Left recursion asks for no repairs**, as long as no growth step without a match is reported. In every
session that a run passes through during recovery, take a clause that is under evaluation at a position
without a match so far, and for which no such step was reported. Then however often it is looked up
there, by itself or through references, under whatever bounds, the answer is that it is pending; nothing
is reported meanwhile, and it stays without a match. And every sequence that goes on at the position with
such an element ends there, in the session that the lookup has left: no repair is looked for. -/
theorem seedless_lookups_pend {definitions : List Definition} {g : Grammar}
    (hb : Grammar.build definitions = .ok g) {rule input : String} {config : Config} {job : Job}
    (hj : Job.make g rule input config = .ok job) {s : Session} (hs : job.Visits .recovery s)
    {body : ClauseId} {pos : Nat} (hseedless : s.Seedless body pos)
    (hunreported : Event.seedGrown body pos none ∉ s.trace) :
    (∀ items : List (ClauseId × Option ClauseId),
      (∀ item ∈ items, g.LeadsTo item.1 body ∧ ∀ other ∈ item.2, job.context.Has other) →
      ∃ t, (∀ depth ≥ job.context.depth,
          (items.mapM fun item => matchClause job.context depth .recovery item.1 pos item.2).run s =
            .ok (items.map fun _ => .pending, t)) ∧
        t.Seedless body pos ∧ t.trace = s.trace) ∧
      ∀ id element rest bound, g.LeadsTo element body → (∀ other ∈ rest, job.context.Has other) →
        (∀ other ∈ bound, job.context.Has other) →
        ∃ t, ∀ depth ≥ job.context.depth,
          (matchClause job.context depth .recovery element pos (elementBound .recovery rest bound)).run s =
              .ok (.pending, t) ∧
            (evaluateElements job.context (matchClause job.context depth) .recovery id bound
              (element :: rest) pos).run s = .ok (none, t) := by
  obtain ⟨rfl, hr, -, -⟩ := Job.make_inv hj
  have hg := build_wellFormed hb
  have hseparates : s.Separates job.context .recovery :=
    hs.holds hg (hg.rule?_lt hr) (separates_invariant job.context)
  have hwaits : s.Waits job.context body pos :=
    { toSeparates := hseparates, toSeedless := hseedless, unreported := hunreported }
  constructor
  · intro items hitems
    obtain ⟨t, hrun, ht, htrace⟩ := hwaits.lookups hg items hitems
    exact ⟨t, hrun, ht.toSeedless, htrace⟩
  · intro id element rest bound hleads hrest hbound
    obtain ⟨t, hrun, -⟩ := hwaits.lookup_deep hg hleads (elementBound_has hrest hbound)
    exact ⟨t, fun depth hdepth => ⟨hrun depth hdepth, evaluateElements_pending (hrun depth hdepth)⟩⟩

/-- The rule of a letter with more letters after it has been come back to during recovery, over an input
that it does not fit. -/
def suffixReentered : Session where
  chart := ⟨#[
    ⟨0, #[none, none, some { result := some .mismatch, active := true }, some { result := some .mismatch },
      some { result := some .mismatch, active := true, leftRecursive := true }]⟩,
    {}]⟩
  trace := [.recovery "S" none, .discovery "S" 1]

/-- There the rule is pending, looked up through its reference and then directly, and the sequence that
begins with the reference is not repaired. -/
theorem seedless_lookups_pend_suffix :
    Grammar.build suffixDefinitions = .ok suffixGrammar ∧
      ∃ job, Job.make suffixGrammar "S" "?" {} = .ok job ∧ job.Visits .recovery suffixReentered ∧
        suffixReentered.Seedless 4 0 ∧ Event.seedGrown 4 0 none ∉ suffixReentered.trace ∧
        (∃ t, ∀ depth ≥ job.context.depth,
          ([(0, some 1), (4, none)].mapM fun item =>
            matchClause job.context depth .recovery item.1 0 item.2).run suffixReentered =
              .ok ([.pending, .pending], t)) ∧
        ∃ t, ∀ depth ≥ job.context.depth,
          (evaluateElements job.context (matchClause job.context depth) .recovery 2 none [0, 1] 0).run
            suffixReentered = .ok (none, t) := by
  have hb : Grammar.build suffixDefinitions = .ok suffixGrammar := rfl
  let job : Job := suffixGrammar.job "S" 4 "?" {}
  have hj : Job.make suffixGrammar "S" "?" {} = .ok job := Job.make_eq_ok rfl
  have hs : job.Visits .recovery suffixReentered := by decide +kernel
  have hseedless : suffixReentered.Seedless 4 0 := ⟨rfl, rfl⟩
  have hunreported : Event.seedGrown 4 0 none ∉ suffixReentered.trace := by decide
  have hbody : suffixGrammar.LeadsTo 4 4 := .here rfl rfl
  have hreference : suffixGrammar.LeadsTo 0 4 := .through rfl hbody
  have hletter : job.context.Has 1 := show 1 < 5 by decide
  obtain ⟨hlookups, hsequences⟩ := seedless_lookups_pend hb hj hs hseedless hunreported
  refine ⟨hb, job, hj, hs, hseedless, hunreported, ?_, ?_⟩
  · obtain ⟨t, hrun, -⟩ := hlookups [(0, some 1), (4, none)] <|
      List.forall_mem_cons.2 ⟨⟨hreference, by simpa using hletter⟩,
        List.forall_mem_singleton.2 ⟨hbody, nofun⟩⟩
    exact ⟨t, hrun⟩
  · obtain ⟨t, hrun⟩ := hsequences 2 0 [1] none hreference (by simpa using hletter) nofun
    exact ⟨t, fun depth hdepth => (hrun depth hdepth).2⟩

/-- A rule that comes back to itself behind an optional letter, and looks ahead for itself. -/
def rerunDefinitions : List Definition :=
  [⟨"S", .seq [.optional (.lit "a"), .seq [.reference "S", .lit "b"], .ahead (.reference "S")]⟩]

/-- The grammar of that rule. -/
def rerunGrammar : Grammar where
  clauses := #[.literal ['a'], .optional 0, .reference "S" 7, .literal ['b'], .seq [2, 3],
    .reference "S" 7, .ahead 5, .seq [1, 4, 6]]
  rules := [⟨"S", false, 7⟩]

/-- At the end of the input the rule is evaluated a second time during recovery. The sequence inside it
was answered from the chart, so the first round has not come back to the rule and has given no match; and
since the rule was left recursive before, that mismatch was stored by a growth step. -/
def rerunStuck : Session where
  chart := ⟨#[
    ⟨0, #[some { result := some (.matched (.terminal 0 0 1)) },
      some { result := some (.matched (.wrapOne 1 (.terminal 0 0 1) true)) }, none, none, none, none, none,
      some { result := some .mismatch, active := true }]⟩,
    ⟨6, #[some { result := some .mismatch, version := 5, phase := .recovery },
      some { result := some (.matched (.emptyAt 1 1 true)), version := 5, phase := .recovery }, none,
      some { result := some .mismatch, version := 4, phase := .recovery },
      some { result := some (.matched (.markGrown (.wrap 4 [.deleted 1 2, .deleted 1 3] true))),
             leftRecursive := true, version := 5, phase := .recovery }, none,
      some { result := some .mismatch, active := true, leftRecursive := true, version := 4,
             phase := .recovery },
      some { result := some .mismatch, active := true, leftRecursive := true, version := 6,
             phase := .recovery }]⟩]⟩
  trace := [.seedGrown 7 1 none, .sequenceRepaired 4 1 0 1, .seedGrown 7 1 (some 0),
    .sequenceRepaired 7 1 0 1, .seedGrown 4 1 (some 0), .sequenceRepaired 4 1 0 2, .recovery "S" none,
    .discovery "S" 1]

/-- **A seedless clause can answer with a mismatch, and sequences are repaired for it**, after a growth
step without a match. The run over one letter passes through such a session during recovery: the body of
the rule is under evaluation at the end of the input without a match, a lookup of it gives a mismatch,
and the sequence that begins with a reference to it is repaired. This is what the run does next. -/
theorem seedless_lookup_mismatches :
    Grammar.build rerunDefinitions = .ok rerunGrammar ∧
      ∃ job, Job.make rerunGrammar "S" "a" {} = .ok job ∧ job.Visits .recovery rerunStuck ∧
        rerunStuck.Seedless 7 1 ∧ rerunGrammar.LeadsTo 2 7 ∧
        (matchClause job.context job.context.depth .recovery 7 1 none).run' rerunStuck = .ok .mismatch ∧
        (evaluateElements job.context (matchClause job.context job.context.depth) .recovery 4 none
          [2, 3] 1).run' rerunStuck = .ok (some [.deleted 1 2, .deleted 1 3]) ∧
        [.seedGrown 7 1 none, .sequenceRepaired 4 1 0 2] <:+: job.run.2 := by
  refine ⟨rfl, rerunGrammar.job "S" 7 "a" {}, Job.make_eq_ok rfl, ?_, ⟨rfl, rfl⟩, ?_, ?_, ?_, ?_⟩
  · decide +kernel
  · exact .through rfl (.here rfl rfl)
  · decide +kernel
  · decide +kernel
  · decide +kernel

end Packrat
