import Packrat.Proofs.GrowingChart

/-!
# The chart grows nested matches

While a left-recursive rule is grown at one position, its steps and bases may come back to it at
others, and there it is grown as well. Matching through the chart gives every clause the outcome that
it reads.

* `LeftRule.Round` — the invariant of a round of growth, relative to the matches so far.
* `step_reads`, `round_reads`, `growSeed_reads`, `matchThrough_grows` — a step, a round, the loop and the
  whole growth of the rule at a position.
* **`matchClause_reads`** — any clause.
* **`Job.execute_reads`** — a run whose top rule reads the whole input.
-/

namespace Packrat

/-! ## Rounds -/

/-- A lookup does not change the match so far. -/
theorem Seed.node?_asked (seed : Seed) : seed.asked.node? = seed.node? := by
  cases seed <;> rfl

/-- What a round has to outdo is the match so far. -/
theorem Seed.best_eq (seed : Seed) : seed.best = .ofNode? seed.node? := by
  cases seed <;> rfl

/-- **The invariant of a round of growth** at a position: the rule is under evaluation with its match
so far, and a step holds at most what it gives with that match, or else something stale. -/
structure LeftRule.Round (ctx : Context) (rule : LeftRule) (matcher : PlainMatcher) (base : Session)
    (busy : ClauseId → Nat → Prop) (growing : Nat → Prop) (pos : Nat) (seed : Seed) (s : Session) :
    Prop where
  /-- Other clauses hold what they read, and the rule rests elsewhere. -/
  quiet : Session.Reading ctx rule s busy (Also growing pos) s
  /-- Where the rule was grown before nothing happens to it. -/
  outer : ∀ {place}, growing place → rule.Kept place base s
  /-- The cell of the rule holds its match so far. -/
  body : s.cellAt rule.top pos = seed.cell (s.versionAt pos)
  /-- What the cells of the steps hold is right or stale. -/
  step : ∀ step ∈ rule.steps, ∃ result version, s.cellAt step.id pos = { result, version } ∧
    version ≤ s.versionAt pos ∧ (version = s.versionAt pos →
      Yields result fun outcome => seed.asked = seed ∧ step.given matcher pos seed.node? = some outcome)

section rounds

variable {ctx : Context} {rule : LeftRule} {matcher : PlainMatcher} {base s t : Session}
  {busy : ClauseId → Nat → Prop} {growing : Nat → Prop} {pos : Nat} {seed : Seed} {step : Step}
  {outcome given : Outcome} {depth version : Nat} {bound : Option ClauseId}

/-- Matching what reads something does not matter to a round. -/
theorem LeftRule.Round.of_reading (h : rule.Round ctx matcher base busy growing pos seed s)
    (ht : Session.Reading ctx rule s busy (Also growing pos) t) :
    rule.Round ctx matcher base busy growing pos seed t := by
  have hkept := ht.kept (.inr rfl)
  refine ⟨ht.rebase, fun hplace => (h.outer hplace).trans (ht.kept (.inl hplace)), ?_, ?_⟩
  · rw [hkept.cell (.inl rfl), hkept.version, h.body]
  · intro step hstep
    rw [hkept.cell (LeftRule.owns_step hstep), hkept.version]
    exact h.step step hstep

/-- Only the shape, the versions and the cells of a chart matter to a round. -/
theorem LeftRule.Round.of_agrees (h : rule.Round ctx matcher base busy growing pos seed s)
    (hagrees : s.Agrees t) : rule.Round ctx matcher base busy growing pos seed t :=
  h.of_reading (h.quiet.of_agrees hagrees)

/-- Whether matching gives every clause its outcome, while the rule is grown at a position too. -/
def LeftRule.Inside (ctx : Context) (rule : LeftRule) (matcher : PlainMatcher)
    (busy : ClauseId → Nat → Prop) (growing : Nat → Prop) (pos : Nat) : Prop :=
  ∀ (base : Session) (depth : Nat) (id : ClauseId) (place : Nat) (bound : Option ClauseId),
    Follows (Session.Reading ctx rule base busy (Also growing pos))
      (matchClause ctx depth .discovery id place bound) (matcher id place)

variable (hform : ctx.grammar.LeftRecursive rule.top rule.steps rule.bases)
  (hpos : pos ≤ ctx.input.size) (hinside : rule.Inside ctx matcher busy growing pos)
include hform hpos

include hinside in
/-- **Evaluating a step** gives what it gives with the match so far, and leaves the rule alone but for
the lookup. -/
theorem step_evaluates (hstep : step ∈ rule.steps) (hlt : pos < s.width)
    (hbody : s.cellAt rule.top pos = seed.cell (s.versionAt pos))
    (hbase : Session.Reading ctx rule base busy (Also growing pos)
      (s.withCell rule.top pos (seed.asked.cell (s.versionAt pos))))
    (hgiven : step.given matcher pos seed.node? = some outcome)
    (hrun : (evaluate ctx (matchClause ctx depth) .discovery step.id (.seq (step.self :: step.tail))
      pos bound).run s = .ok (given, t)) :
    given = outcome ∧ Session.Reading ctx rule base busy (Also growing pos) t := by
  obtain ⟨row, u, hrow, hrun⟩ := Session.run_bind_eq_ok.1 hrun
  rw [evaluateElements] at hrow
  obtain ⟨found, v, hfound, hrow⟩ := Session.run_bind_eq_ok.1 hrow
  obtain ⟨hlift, hagrees⟩ := self_run hform hpos hstep hlt hbody hfound
  have hv := hbase.of_agrees hagrees
  cases hnode : seed.node? with
  | none =>
    rw [hnode] at hgiven hlift
    cases hgiven
    cases found with
    | matched node => cases hlift
    | mismatch | pending =>
      cases hrow
      cases hrun
      exact ⟨rfl, hv⟩
  | some node =>
    rw [hnode] at hgiven hlift
    cases found with
    | matched first =>
      obtain rfl : first = node.lift step.self := Option.some.inj hlift
      obtain ⟨expected, hexpected, hgiven⟩ := Option.bind_eq_some_iff.1 hgiven
      cases hgiven
      obtain ⟨rest, w, hrest, hrow⟩ := Session.run_bind_eq_ok.1 hrow
      rw [Node.len_lift] at hrest
      have hfollows : Follows (Session.Reading ctx rule base busy (Also growing pos))
          (evaluateElements ctx (matchClause ctx depth) .discovery step.id bound step.tail
            (pos + node.len)) (plainElements matcher step.tail (pos + node.len)) :=
        evaluateElements_follows (fun id place bound => hinside base depth id place bound) step.id bound
          step.tail _
      obtain ⟨hw, rfl⟩ := (hfollows expected hexpected).of_ok hv hrest
      cases rest with
      | none | some rest =>
        cases hrow
        cases hrun
        exact ⟨rfl, hw⟩
    | mismatch | pending => cases hlift

omit hform in
/-- Nothing that other clauses read changes when a step comes under evaluation. -/
theorem LeftRule.Round.stepping (h : rule.Round ctx matcher base busy growing pos seed s)
    (hstep : step ∈ rule.steps) :
    Session.Reading ctx rule (s.stepping rule.top step pos version seed) busy (Also growing pos)
      (s.stepping rule.top step pos version seed) :=
  (h.quiet.withOwn hpos (.inr rfl) (LeftRule.owns_step hstep) _).withOwn hpos (.inr rfl) (.inl rfl) _

/-- A step that was evaluated is stored. -/
theorem LeftRule.Round.stepped (h : rule.Round ctx matcher base busy growing pos seed s)
    (hnew : ¬growing pos) (hstep : step ∈ rule.steps)
    (ht : Session.Reading ctx rule (s.stepping rule.top step pos version seed) busy
      (Also growing pos) t)
    (hgiven : step.given matcher pos seed.node? = some outcome) :
    rule.Round ctx matcher base busy growing pos seed.asked
      (t.withCell step.id pos { result := some outcome, version := t.versionAt pos }) := by
  have hne := hform.id_ne_top hstep
  have hlts := h.quiet.lt_width hpos
  have hlt := ht.lt_width hpos
  have hkept := ht.kept (.inr rfl)
  obtain ⟨hversion, hbody, -, hothers⟩ := Session.reads_stepping version seed hlts hne
  rw [← hkept.version] at hversion
  refine ⟨ht.rebase.withOwn hpos (.inr rfl) (LeftRule.owns_step hstep) _, ?_, ?_, ?_⟩
  · intro place hplace
    have hother : place ≠ pos := ne_of_growing hplace hnew
    have hlts' : pos < (s.withCell step.id pos { active := true, version }).width := by
      rwa [Session.width_withCell]
    exact (h.outer hplace).trans ((LeftRule.Kept.withCell hlts (.inr hother)).trans
      ((LeftRule.Kept.withCell hlts' (.inr hother)).trans
        ((ht.kept (.inl hplace)).trans (.withCell hlt (.inr hother)))))
  · rw [Session.versionAt_withCell hlt, hversion, Session.cellAt_withCell hlt,
      if_neg fun heq => hne heq.1.symm, hkept.cell (.inl rfl), hbody]
  · intro other hother
    rw [Session.versionAt_withCell hlt, hversion, Session.cellAt_withCell hlt, Seed.node?_asked,
      Seed.asked_asked]
    by_cases hsame : other.id = step.id
    · obtain rfl := hform.step_eq hstep hother hsame
      rw [if_pos ⟨rfl, rfl⟩]
      exact ⟨_, _, rfl, Nat.le_refl _, fun _ => Yields.pure ⟨rfl, hgiven⟩⟩
    · obtain ⟨result, version', hcell, hle, hresult⟩ := h.step other hother
      rw [if_neg fun heq => hsame heq.1, hkept.cell (LeftRule.owns_step hother),
        hothers other.id (hform.id_ne_top hother) hsame]
      exact ⟨result, version', hcell, hle,
        fun hnow stored hstored => ⟨rfl, (hresult hnow stored hstored).2⟩⟩

include hinside in
/-- **Matching a step in a round** gives what it gives with the match so far. -/
theorem step_reads (h : rule.Round ctx matcher base busy growing pos seed s) (hnew : ¬growing pos)
    (hstep : step ∈ rule.steps) (hgiven : step.given matcher pos seed.node? = some outcome)
    (hrun : (matchClause ctx depth .discovery step.id pos bound).run s = .ok (given, t)) :
    given = outcome ∧ rule.Round ctx matcher base busy growing pos seed.asked t := by
  obtain ⟨less, hrun⟩ := matchClause_inv hpos (hform.seq step hstep) hrun
  obtain ⟨result, version, hcell, -, hresult⟩ := h.step step hstep
  have hlt := h.quiet.lt_width hpos
  have hne := hform.id_ne_top hstep
  have hstored : version = s.versionAt pos → Yields result (· = outcome) := by
    intro hnow stored hsome
    exact Option.some.inj ((hresult hnow stored hsome).2.symm.trans hgiven)
  have hempty : ∀ u, Session.Reading ctx rule (s.stepping rule.top step pos version seed) busy
      (Also growing pos) u → pos < u.width ∧
        ∃ version, u.cellAt step.id pos = { active := true, version } := by
    intro u hu
    refine ⟨hu.lt_width hpos, version, ?_⟩
    rw [(hu.kept (.inr rfl)).cell (LeftRule.owns_step hstep)]
    exact (Session.reads_stepping version seed hlt hne).2.2.1
  have heval : ∀ counted value u,
      (evaluate ctx (matchClause ctx less) .discovery step.id (.seq (step.self :: step.tail)) pos
        bound).run counted = .ok (value, u) →
      (s.withCell step.id pos { active := true, version }).Agrees counted →
      value = outcome ∧ Session.Reading ctx rule (s.stepping rule.top step pos version seed) busy
        (Also growing pos) u := by
    intro counted value u hvalue hcounted
    have hlt' : pos < (s.withCell step.id pos { active := true, version }).width := by
      rwa [Session.width_withCell]
    have hversion : counted.versionAt pos = s.versionAt pos := by
      rw [hcounted.version, Session.versionAt_withCell hlt]
    refine step_evaluates hform hpos hinside hstep (by rwa [hcounted.width]) ?_ ?_ hgiven hvalue
    · rw [hcounted.cell, Session.cellAt_withCell hlt, if_neg fun heq => hne heq.1.symm, h.body,
        hversion]
    · rw [hversion]
      exact (h.stepping hpos hstep).of_agrees (hcounted.withCell hlt' _)
  obtain ⟨rfl, ⟨hnow, hsome, hagrees⟩ | ⟨u, hu, hagrees⟩⟩ :=
    matchThrough_once hlt hcell hstored hempty heval hrun
  · rw [(hresult hnow given hsome).1]
    exact ⟨rfl, h.of_agrees hagrees⟩
  · exact ⟨rfl, (h.stepped hform hpos hnew hstep hu hgiven).of_agrees hagrees⟩

include hinside in
/-- **Any clause in a round**, once the rule has been looked up. -/
theorem seeded_follows (hnew : ¬growing pos) (hasked : seed.asked = seed) (id : ClauseId)
    (place : Nat) :
    Follows (rule.Round ctx matcher base busy growing pos seed)
      (matchClause ctx depth .discovery id place bound)
      (seeded matcher rule pos seed.node? id place) := by
  intro outcome houtcome s hs
  cases hrun : (matchClause ctx depth .discovery id place bound).run s with
  | error e => trivial
  | ok answer =>
    obtain ⟨given, t⟩ := answer
    unfold seeded at houtcome
    split at houtcome
    · rename_i step hfound
      have hstep : step ∈ rule.steps := List.mem_of_find?_eq_some hfound
      obtain rfl : step.id = id := by simpa using List.find?_some hfound
      obtain ⟨rfl, hgiven⟩ := Option.ite_none_right_eq_some.1 houtcome
      obtain ⟨rfl, ht⟩ := step_reads hform hpos hinside hs hnew hstep hgiven hrun
      rw [hasked] at ht
      exact ⟨ht, rfl⟩
    · obtain ⟨ht, rfl⟩ := (hinside s depth id place bound outcome houtcome).of_ok hs.quiet hrun
      exact ⟨hs.of_reading ht, rfl⟩

include hinside in
/-- **A round of growth**: one evaluation of the body of the rule. Its first step looks the rule up. -/
theorem round_reads (h : rule.Round ctx matcher base busy growing pos seed s) (hnew : ¬growing pos)
    (hplain : plainClause ctx (seeded matcher rule pos seed.node?) 0 rule.top rule.body pos =
      some outcome)
    (hrun : (evaluate ctx (matchClause ctx depth) .discovery rule.top rule.body pos bound).run s =
      .ok (given, t)) :
    given = outcome ∧ rule.Round ctx matcher base busy growing pos seed.asked t := by
  obtain ⟨first, others, hsteps⟩ := List.exists_cons_of_ne_nil hform.steps_ne
  have hfirst : first ∈ rule.steps := hsteps ▸ List.mem_cons_self
  have hbody : rule.body = .choice (first.id :: (others.map Step.id ++ rule.bases)) := by
    rw [LeftRule.body, hsteps]
    rfl
  rw [hbody, evaluate, evaluateChoice, chooseAlternative_discovery, firstAlternative, bind_assoc]
    at hrun
  rw [hbody] at hplain
  obtain ⟨chosen, hchosen, hplain⟩ := Option.bind_eq_some_iff.1 hplain
  rw [plainFirst] at hchosen
  obtain ⟨tried, htried, hchosen⟩ := Option.bind_eq_some_iff.1 hchosen
  have hgiven : first.given matcher pos seed.node? = some tried := by
    rw [← htried, seeded, LeftRule.step?_eq hform hfirst]
    exact (if_pos rfl).symm
  obtain ⟨found, u, hfound, hrun⟩ := Session.run_bind_eq_ok.1 hrun
  obtain ⟨rfl, hu⟩ := step_reads hform hpos hinside h hnew hfirst hgiven hfound
  cases found with
  | matched node =>
    cases hchosen
    cases hplain
    cases hrun
    exact ⟨rfl, hu⟩
  | mismatch | pending =>
    rw [← Seed.node?_asked] at hchosen
    have hothers : Follows (rule.Round ctx matcher base busy growing pos seed.asked)
        (firstAlternative (matchClause ctx depth) .discovery pos bound
          (others.map Step.id ++ rule.bases))
        (plainFirst (seeded matcher rule pos seed.asked.node?) pos
          (others.map Step.id ++ rule.bases)) :=
      firstAlternative_follows
        (fun id place _ => seeded_follows hform hpos hinside hnew seed.asked_asked id place) pos bound _
    obtain ⟨rest, v, hrest, hrun⟩ := Session.run_bind_eq_ok.1 hrun
    obtain ⟨hv, rfl⟩ := (hothers chosen hchosen).of_ok hu hrest
    cases rest with
    | none | some node =>
      cases hplain
      cases hrun
      exact ⟨rfl, hv⟩

/-! ## The loop -/

/-- **The rule gets another match**: with the position made stale, so is what the steps hold. -/
theorem LeftRule.Round.advanced (h : rule.Round ctx matcher base busy growing pos seed s)
    (hnew : ¬growing pos) (node : Node) :
    rule.Round ctx matcher base busy growing pos (.grown node)
      ((s.bumped pos).withCell rule.top pos ((Seed.grown node).cell (s.versionAt pos + 1))) := by
  have hlt := h.quiet.lt_width hpos
  have hlt' : pos < (s.bumped pos).width := by rwa [Session.width_bumped]
  have hversion : (s.bumped pos).versionAt pos = s.versionAt pos + 1 := by
    rw [Session.versionAt_bumped hlt, if_pos rfl]
  refine ⟨(h.quiet.bumpedOwn hpos (.inr rfl)).withOwn hpos (.inr rfl) (.inl rfl) _, ?_, ?_, ?_⟩
  · intro place hplace
    have hother : place ≠ pos := ne_of_growing hplace hnew
    exact (h.outer hplace).trans ((LeftRule.Kept.bumped hlt hother).trans
      (.withCell hlt' (.inr hother)))
  · rw [Session.cellAt_withCell_self hlt', Session.versionAt_withCell hlt', hversion]
  · intro step hstep
    obtain ⟨result, version, hcell, hle, -⟩ := h.step step hstep
    rw [Session.versionAt_withCell hlt', hversion, Session.cellAt_withCell hlt',
      if_neg fun heq => hform.id_ne_top hstep heq.1, Session.cellAt_bumped hlt]
    refine ⟨result, version, hcell, Nat.le_succ_of_le hle, ?_⟩
    intro hnow
    omega

include hinside in
/-- **The loop of growth**: it ends with the match with which growth ends. The induction is on the
rounds of growth, each of which is one turn of the loop. -/
theorem growSeed_reads (hnew : ¬growing pos) : ∀ {rounds fuel : Nat} {seed : Seed} {s t : Session}
    {final : Option Node}, rule.Round ctx matcher base busy growing pos seed s →
    growFrom ctx matcher rule pos rounds seed.node? = some final →
    (growSeed (evaluate ctx (matchClause ctx depth) .discovery rule.top rule.body pos bound) rule.top
      pos fuel).run s = .ok ((), t) →
    ∃ last : Seed, last.node? = final ∧ last.asked = last ∧
      rule.Round ctx matcher base busy growing pos last t
  | 0, _, _, _, _, _, _, hgrows, _ => nomatch hgrows
  | _ + 1, 0, _, _, _, _, _, _, hrun => nomatch hrun
  | rounds + 1, fuel + 1, seed, s, t, final, h, hgrows, hrun => by
    rw [growFrom] at hgrows
    obtain ⟨outcome, hplain, hgrows⟩ := Option.bind_eq_some_iff.1 hgrows
    rw [growSeed, Session.run_bind_of_ok Session.run_tally] at hrun
    obtain ⟨given, u, hgiven, hrun⟩ := Session.run_bind_eq_ok.1 hrun
    obtain ⟨rfl, hu⟩ :=
      round_reads hform hpos hinside (h.of_agrees (.counted s _)) hnew hplain hgiven
    have hlt := hu.quiet.lt_width hpos
    rw [Session.run_bind_of_ok (Session.run_cell hlt), hu.body, Seed.cell, seed.result_asked,
      seed.best_eq] at hrun
    simp only [Option.any_some, Bool.not_eq_true', Option.isSome_some] at hrun
    cases hprogress : given.longerThan (.ofNode? seed.node?) with
    | false =>
      rw [hprogress] at hrun hgrows
      cases hrun
      cases hgrows
      exact ⟨seed.asked, seed.node?_asked, seed.asked_asked, hu⟩
    | true =>
      obtain ⟨node, rfl⟩ := Outcome.exists_node_of_longerThan hprogress
      rw [hprogress] at hrun hgrows
      simp only [Bool.true_eq_false, if_false] at hrun
      rw [Session.run_bind_of_ok (Session.run_bump hlt),
        Session.run_bind_of_ok Session.run_storeGrown] at hrun
      have hnext : growFrom ctx matcher rule pos rounds (Seed.grown node).node? = some final := hgrows
      refine growSeed_reads hnew ?_ hnext hrun
      exact (hu.advanced hform hpos hnew node).of_agrees (.of_chart_eq rfl)

/-! ## Through the chart -/

/-- The rule comes under evaluation where it has not been tried. -/
theorem LeftRule.Round.start (hs : Session.Reading ctx rule base busy growing s)
    (hnew : ¬growing pos) (hversion : s.versionAt pos = 0)
    (hcells : ∀ id, rule.Owns id → s.cellAt id pos = {}) :
    rule.Round ctx matcher base busy growing pos .untried
      (s.withCell rule.top pos { active := true }) := by
  have hlt := hs.lt_width hpos
  refine ⟨(hs.grow pos).withOwn hpos (.inr rfl) (.inl rfl) _, ?_, ?_, ?_⟩
  · intro place hplace
    have hother : place ≠ pos := ne_of_growing hplace hnew
    exact (hs.kept hplace).trans (.withCell hlt (.inr hother))
  · rw [Session.cellAt_withCell_self hlt, Session.versionAt_withCell hlt, hversion]
    rfl
  · intro step hstep
    rw [Session.cellAt_withCell hlt, if_neg fun heq => hform.id_ne_top hstep heq.1,
      hcells step.id (LeftRule.owns_step hstep)]
    refine ⟨none, 0, rfl, Nat.zero_le _, fun _ outcome houtcome => ?_⟩
    cases houtcome

omit hform in
/-- The rule ends being under evaluation, with its outcome in the cell. -/
theorem LeftRule.Round.leave (h : rule.Round ctx matcher base busy growing pos seed s)
    (hnew : ¬growing pos) (hasked : seed.asked = seed)
    (hreads : Reads ctx rule rule.top pos (.ofNode? (seed.node?.map Node.markGrown)))
    (hrun : (do
      let cell := (← Session.cell rule.top pos).leave .discovery (← Session.version pos)
      Session.setCell rule.top pos cell
      return cell.result.getD .mismatch : MatchM Outcome).run s = .ok (given, t)) :
    given = .ofNode? (seed.node?.map Node.markGrown) ∧
      Session.Reading ctx rule base busy growing t := by
  have hlt := h.quiet.lt_width hpos
  rw [Session.run_bind_of_ok (Session.run_cell hlt), Session.run_bind_of_ok (Session.run_version hlt),
    Session.run_bind_of_ok Session.run_setCell, h.body] at hrun
  have hleft : (seed.cell (s.versionAt pos)).leave .discovery (s.versionAt pos) =
      { result := some (.ofNode? (seed.node?.map Node.markGrown)), leftRecursive := true,
        version := s.versionAt pos } := by
    cases seed with
    | untried => cases hasked
    | refused | grown node => rfl
  rw [hleft] at hrun
  cases hrun
  refine ⟨rfl, (h.quiet.withOwn hpos (.inr rfl) (.inl rfl) _).rest ?_ (.read hreads ?_)⟩
  · intro place hplace
    have hother : place ≠ pos := ne_of_growing hplace hnew
    exact (h.outer hplace).trans (.withCell hlt (.inr hother))
  · rw [Session.cellAt_withCell_self hlt, Session.versionAt_withCell hlt]

include hinside in
/-- **Matching the rule through the chart** where it is not being grown: its outcome is found, or it is
grown from the start. -/
theorem matchThrough_grows (hnew : ¬growing pos) {rounds : Nat} {final : Option Node}
    (hgrows : growFrom ctx matcher rule pos rounds none = some final)
    (hreads : Reads ctx rule rule.top pos (.ofNode? (final.map Node.markGrown))) :
    Ensures True (Session.Reading ctx rule base busy growing)
      (matchThrough ctx (evaluate ctx (matchClause ctx depth) .discovery rule.top rule.body pos bound)
        .discovery rule.top pos) (· = .ofNode? (final.map Node.markGrown)) := by
  intro s hs
  have hlt := hs.lt_width hpos
  cases hrun : (matchThrough ctx (evaluate ctx (matchClause ctx depth) .discovery rule.top rule.body
      pos bound) .discovery rule.top pos).run s with
  | error e => trivial
  | ok answer =>
    obtain ⟨given, t⟩ := answer
    rw [matchThrough, Session.run_bind_of_ok (Session.run_version hlt),
      Session.run_bind_of_ok (Session.run_cell hlt)] at hrun
    cases hs.rested hnew with
    | read hstored hcell =>
      obtain rfl := hstored.unique hreads
      have hreuse : (s.cellAt rule.top pos).reusable? .discovery (s.versionAt pos) pos ctx.input.size =
          some (.ofNode? (final.map Node.markGrown)) := by
        rw [hcell]
        simp [Cell.reusable?, Cell.mustRetry]
      rw [hreuse] at hrun
      cases hrun
      exact ⟨hs.of_chart_eq rfl, rfl⟩
    | untried hversion hcells =>
      rw [hcells rule.top (.inl rfl), hversion] at hrun
      -- An empty cell answers no lookup; it is entered, and the rest is the loop and leaving it.
      have hentered : (do
          growSeed (evaluate ctx (matchClause ctx depth) .discovery rule.top rule.body pos bound)
            rule.top pos (ctx.input.size + 3)
          let cell := (← Session.cell rule.top pos).leave .discovery (← Session.version pos)
          Session.setCell rule.top pos cell
          return cell.result.getD .mismatch : MatchM Outcome).run
            (s.withCell rule.top pos { active := true }) = .ok (given, t) := hrun
      obtain ⟨_, u, hloop, hleave⟩ := Session.run_bind_eq_ok.1 hentered
      obtain ⟨last, rfl, hasked, hu⟩ := growSeed_reads hform hpos hinside hnew
        (LeftRule.Round.start hform hpos hs hnew hversion hcells) hgrows hloop
      obtain ⟨rfl, ht⟩ := hu.leave hpos hnew hasked hreads hleave
      exact ⟨ht, rfl⟩

end rounds

/-! ## Any clause -/

/-- Matching another clause through its cell. -/
theorem matchThrough_reads {ctx : Context} {rule : LeftRule} {base : Session}
    {busy : ClauseId → Nat → Prop} {growing : Nat → Prop} {id : ClauseId} {pos : Nat}
    {evaluation : MatchM Outcome} {outcome : Outcome} (hpos : pos ≤ ctx.input.size)
    (howns : ¬rule.Owns id) (hfree : ¬busy id pos) (hreads : Reads ctx rule id pos outcome)
    (heval : Ensures True (Session.Reading ctx rule base (Entering busy id pos) growing) evaluation
      (· = outcome)) :
    Ensures True (Session.Reading ctx rule base busy growing)
      (matchThrough ctx evaluation .discovery id pos) (· = outcome) := by
  intro s hs
  obtain ⟨result, version, hcell, hresult⟩ := hs.settled hfree howns hreads
  have hstored : version = s.versionAt pos → Yields result (· = outcome) :=
    fun _ stored hsome => (hresult stored hsome).unique hreads
  have hempty : ∀ u : Session, Session.Reading ctx rule base (Entering busy id pos) growing u →
      pos < u.width ∧ ∃ version, u.cellAt id pos = { active := true, version } :=
    fun u hu => ⟨hu.lt_width hpos, hu.underway (.inr ⟨rfl, rfl⟩)⟩
  cases hrun : (matchThrough ctx evaluation .discovery id pos).run s with
  | error e => trivial
  | ok answer =>
    obtain ⟨given, t⟩ := answer
    obtain ⟨rfl, ⟨-, -, hagrees⟩ | ⟨u, hu, hagrees⟩⟩ :=
      matchThrough_once (hs.lt_width hpos) hcell hstored hempty
        (fun counted value u hvalue hcounted =>
          (heval.of_ok ((hs.entered hpos howns version).of_agrees hcounted) hvalue).symm) hrun
    · exact ⟨hs.of_agrees hagrees, rfl⟩
    · exact ⟨(hu.left hpos howns hfree hreads _).of_agrees hagrees, rfl⟩

/-- **Any clause is given what it reads.** The induction is on the fuel of reading, at whatever depth.
Neither cells under evaluation nor the rule where it is being grown read anything with that fuel, so
the clause is not one of them; if it reads nothing with less fuel, it may join them. -/
theorem matchClause_reads {ctx : Context} {rule : LeftRule}
    (hform : ctx.grammar.LeftRecursive rule.top rule.steps rule.bases) {base : Session} :
    ∀ {fuel depth : Nat} {busy : ClauseId → Nat → Prop} {growing : Nat → Prop}
    (id : ClauseId) (pos : Nat) (bound : Option ClauseId),
    (∀ other place, busy other place → readAtFuel ctx rule fuel other place = none) →
    (∀ place, growing place → readAtFuel ctx rule fuel rule.top place = none) →
    Follows (Session.Reading ctx rule base busy growing)
      (matchClause ctx depth .discovery id pos bound) (readAtFuel ctx rule fuel id pos)
  | 0, _, _, _, _, _, _, _, _ => nofun
  | _ + 1, 0, _, _, _, _, _, _, _ => .throw
  | fuel + 1, depth + 1, busy, growing, id, pos, bound, hbusy, hgrowing => by
    intro outcome houtcome
    have hreads : Reads ctx rule id pos outcome := ⟨fuel + 1, houtcome⟩
    have hbusy' : ∀ other place, busy other place → readAtFuel ctx rule fuel other place = none :=
      fun other place h => readAtFuel_eq_none (Nat.le_succ fuel) (hbusy other place h)
    have hgrowing' : ∀ place, growing place → readAtFuel ctx rule fuel rule.top place = none :=
      fun place h => readAtFuel_eq_none (Nat.le_succ fuel) (hgrowing place h)
    cases hless : readAtFuel ctx rule fuel id pos with
    | some earlier =>
      obtain rfl : earlier = outcome := Reads.unique ⟨fuel, hless⟩ hreads
      exact matchClause_reads hform id pos bound hbusy' hgrowing' earlier hless
    | none =>
      have hfree : ¬busy id pos := by
        intro h
        rw [hbusy id pos h] at houtcome
        cases houtcome
      rw [readAtFuel] at houtcome
      rw [matchClause_succ]
      by_cases hbeyond : ctx.input.size < pos
      · rw [if_pos hbeyond] at houtcome
        rw [matchWith, if_pos hbeyond]
        cases houtcome
        exact .pure rfl
      rw [if_neg hbeyond] at houtcome
      have hpos : pos ≤ ctx.input.size := Nat.le_of_not_lt hbeyond
      by_cases htop : id = rule.top
      · subst htop
        rw [if_pos rfl] at houtcome
        obtain ⟨final, hgrows, houtcome⟩ := Option.bind_eq_some_iff.1 houtcome
        cases houtcome
        have hnew : ¬growing pos := by
          intro h
          obtain ⟨_, hsome⟩ : ∃ outcome, readAtFuel ctx rule (fuel + 1) rule.top pos = some outcome := by
            refine ⟨.ofNode? (final.map Node.markGrown), ?_⟩
            rw [readAtFuel, if_neg hbeyond, if_pos rfl, hgrows]
            rfl
          rw [hgrowing pos h] at hsome
          cases hsome
        rw [matchWith_of_clause hpos hform.body]
        refine matchThrough_grows hform hpos (fun base' depth' other place bound' => ?_) hnew hgrows
          hreads
        refine matchClause_reads hform other place bound' hbusy' ?_
        rintro place (h | rfl)
        · exact hgrowing' place h
        · exact hless
      · rw [if_neg htop] at houtcome
        split at houtcome
        · cases houtcome
        · rename_i hstep
          obtain ⟨clause, hclause, houtcome⟩ := Option.bind_eq_some_iff.1 houtcome
          have hevaluate : ∀ {busy' : ClauseId → Nat → Prop},
              (∀ other place, busy' other place → readAtFuel ctx rule fuel other place = none) →
              Ensures True (Session.Reading ctx rule base busy' growing)
                (evaluate ctx (matchClause ctx depth) .discovery id clause pos bound) (· = outcome) :=
            fun hnone => evaluate_follows
              (fun other place bound' => matchClause_reads hform other place bound' hnone hgrowing')
              fuel id clause pos bound outcome houtcome
          rw [matchWith_of_clause hpos hclause]
          split
          · exact hevaluate hbusy'
          · have howns : ¬rule.Owns id := fun h => h.elim htop hstep
            refine matchThrough_reads hpos howns hfree hreads (hevaluate ?_)
            rintro other place (h | ⟨rfl, rfl⟩)
            · exact hbusy' other place h
            · exact hless

/-! ## Parses -/

/-- **The first phase gives what the top rule reads**, if it reads anything. -/
theorem Job.First.eq_of_reads {job : Job} {rule : LeftRule}
    (hform : job.grammar.LeftRecursive rule.top rule.steps rule.bases) {first outcome : Outcome}
    (hfirst : job.First first) (hreads : Reads job.context rule job.top 0 outcome) :
    first = outcome := by
  obtain ⟨t, ht⟩ := hfirst
  obtain ⟨fuel, hfuel⟩ := hreads
  have hstart : Session.Reading job.context rule job.opening Nowhere (fun _ => False) job.opening :=
    (Session.Reading.start job.context rule job.opening).of_chart_eq rfl
  have hfollows : Ensures True
      (Session.Reading job.context rule job.opening Nowhere fun _ => False)
      (job.matchTop job.firstPhase) (· = outcome) :=
    matchClause_reads hform job.top 0 none (fun _ _ h => h.elim) (fun _ h => h.elim) _ hfuel
  exact (hfollows.of_ok hstart ht).2

/-- **A run whose top rule reads the whole input** ends without errors, with what is read as its
root. -/
theorem Job.execute_reads {job : Job} (hg : job.grammar.WellFormed) {rule : LeftRule}
    (hform : job.grammar.LeftRecursive rule.top rule.steps rule.bases)
    (htop : job.context.Has job.top) {node : Node}
    (hreads : Reads job.context rule job.top 0 (.matched node))
    (hcovers : job.covers (.matched node) = true) :
    ∃ work events, job.execute = .ok (job.assemble (.matched node) false work, events) := by
  obtain ⟨⟨outcome, hasErrors⟩, session, hrun, -⟩ :=
    (matchPhases_ensures hg htop).run job.start_sound
  obtain ⟨first, hfirst, rfl, hlast⟩ := matchPhases_inv hrun
  obtain rfl := hfirst.eq_of_reads hform hreads
  obtain rfl := hlast (.inl hcovers)
  obtain ⟨events, hexecute⟩ := execute_of_run hrun
  rw [hcovers] at hexecute
  exact ⟨session.work, events, hexecute⟩

end Packrat
