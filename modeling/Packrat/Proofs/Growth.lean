import Packrat.Proofs.Rounds

/-!
# Left recursion is greedy and associates to the left

A left-recursive rule is matched by growing: the first round finds the match of a base, and every
other round takes the match of the one before for the rule and makes it longer by a step. The loop
ends when a round makes no progress.

* `Round.advanced` — between two rounds the position is made stale, so that no step is answered with
  what it gave before.
* `growSeed_round`, `growSeed_grows`, `growSeed_untried` — one turn of the loop, the loop from a
  match on, and the whole loop.
* `matchClause_grows` — matching the rule in an empty chart.
* **`parse_grows`** — a parse from the rule.
-/

namespace Packrat

section growth

variable {ctx : Context} {top : ClauseId} {steps : List Step} {bases : List ClauseId} {pos : Nat}
  {seed : Seed} {s t : Session} {depth : Nat} {bound : Option ClauseId}
  (hgrow : Growable ctx top steps bases pos)

include hgrow in
/-- **The rule gets another match**: with the position made stale, so is what the steps hold. -/
theorem Round.advanced {node : Node} (h : Round ctx top steps pos seed s)
    (hnode : node.pos = pos ∧ node.stop ≤ ctx.input.size) :
    Round ctx top steps pos (.grown node)
      ((s.bumped pos).withCell top pos ((Seed.grown node).cell (s.versionAt pos + 1))) := by
  have hlt := h.quiet.lt_width hgrow.within
  have hlt' : pos < (s.bumped pos).width := by rwa [Session.width_bumped]
  have hversion : (s.bumped pos).versionAt pos = s.versionAt pos + 1 := by
    rw [Session.versionAt_bumped hlt, if_pos rfl]
  obtain ⟨htop, -⟩ := hgrow.form.not_plain hgrow.within
  refine ⟨(h.quiet.bumped hgrow.within).withCell hgrow.within htop _, ?_, ?_, ?_⟩
  · rw [Session.cellAt_withCell_self hlt', Session.versionAt_withCell hlt', hversion]
  · rintro _ ⟨⟩
    exact hnode
  · intro step hstep
    obtain ⟨result, version, hcell, hle, -⟩ := h.step step hstep
    rw [Session.versionAt_withCell hlt', hversion, Session.cellAt_withCell hlt',
      if_neg fun heq => hgrow.form.id_ne_top hstep heq.1, Session.cellAt_bumped hlt]
    refine ⟨result, version, hcell, Nat.le_succ_of_le hle, ?_⟩
    intro hnow
    omega

/-! ## The loop -/

/-- Evaluating the body of the rule. -/
def evaluateRule (ctx : Context) (top : ClauseId) (steps : List Step) (bases : List ClauseId)
    (pos depth : Nat) (bound : Option ClauseId) : MatchM Outcome :=
  evaluate ctx (matchClause ctx depth) .discovery top (.choice (steps.map Step.id ++ bases)) pos bound

include hgrow

/-- **One turn of the loop**: it ends if the round gives no progress, and goes on with what the round
gives otherwise. -/
theorem growSeed_round {fuel : Nat} (h : Round ctx top steps pos seed s)
    (hrun : (growSeed (evaluateRule ctx top steps bases pos depth bound) top pos (fuel + 1)).run s =
      .ok ((), t)) :
    ∃ given, RoundGives ctx top steps bases pos seed given ∧
      (given.longerThan seed.best = false ∧ Round ctx top steps pos seed.asked t ∨
        given.longerThan seed.best = true ∧
          ∃ node u, given = .matched node ∧ Round ctx top steps pos (.grown node) u ∧
            (growSeed (evaluateRule ctx top steps bases pos depth bound) top pos fuel).run u =
              .ok ((), t)) := by
  rw [growSeed, Session.run_bind_of_ok Session.run_tally] at hrun
  obtain ⟨given, u, hgiven, hrun⟩ := Session.run_bind_eq_ok.1 hrun
  obtain ⟨hgives, hu⟩ := round_run hgrow (h.of_agrees (.counted s _)) hgiven
  have hlt := hu.quiet.lt_width hgrow.within
  rw [Session.run_bind_of_ok (Session.run_cell hlt), hu.body, Seed.cell, seed.result_asked] at hrun
  simp only [Option.any_some, Bool.not_eq_true', Option.isSome_some] at hrun
  refine ⟨given, hgives, ?_⟩
  cases hprogress : given.longerThan seed.best with
  | false =>
    rw [if_pos hprogress] at hrun
    cases hrun
    exact .inl ⟨rfl, hu⟩
  | true =>
    obtain ⟨node, rfl⟩ := Outcome.exists_node_of_longerThan hprogress
    have hnext := hu.advanced hgrow (hgives.fits hgrow h.fits)
    rw [hprogress] at hrun
    simp only [Bool.true_eq_false, if_false] at hrun
    rw [Session.run_bind_of_ok (Session.run_bump hlt),
      Session.run_bind_of_ok Session.run_storeGrown] at hrun
    refine .inr ⟨rfl, node, _, rfl, ?_, hrun⟩
    exact hnext.of_agrees (.of_chart_eq rfl)

/-- **The loop from a match on** that is no shorter than what the bases give: it ends with the match
grown. When no step goes on, the round falls back on the bases and makes no progress. -/
theorem growSeed_grows : ∀ {fuel : Nat} {node : Node} {s t : Session},
    Round ctx top steps pos (.grown node) s →
    (∀ base child, FirstBase ctx bases pos (some (base, child)) → child.len ≤ node.len) →
    (growSeed (evaluateRule ctx top steps bases pos depth bound) top pos fuel).run s = .ok ((), t) →
    ∃ final, Grows ctx top steps node final ∧ Round ctx top steps pos (.grown final) t
  | 0, _, _, _, _, _, hrun => nomatch hrun
  | fuel + 1, node, s, t, h, hlen, hrun => by
    obtain ⟨given, hgives, hround⟩ := growSeed_round hgrow h hrun
    cases hgives with
    | @stepped _ step rest hfirst =>
      obtain ⟨-, hgrown, -⟩ := hfirst.len_row hgrow.wellFormed top (h.fits node rfl).2
      rw [Seed.best, Outcome.longerThan_matched, hgrown] at hround
      rcases hround with ⟨hidle, ht⟩ | ⟨hlonger, new, u, heq, hu, hrun⟩
      · have hnone : covered rest = 0 := by simpa using hidle
        exact ⟨node, .idle hfirst hnone, ht⟩
      · have hsome : 0 < covered rest := by simpa using hlonger
        cases heq
        have hlen' : ∀ base child, FirstBase ctx bases pos (some (base, child)) →
            child.len ≤ ((step.row node rest).lift top).len := by
          intro base child hchild
          have hle := hlen base child hchild
          omega
        obtain ⟨final, hfinal, ht⟩ := growSeed_grows hu hlen' hrun
        exact ⟨final, .step hfirst hsome hfinal, ht⟩
    | @based _ found hended hbase =>
      have hshort : (baseOutcome top found).longerThan (.matched node) = false := by
        cases found with
        | none => rfl
        | some item =>
          have hle := hlen item.1 item.2 hbase
          rw [baseOutcome, Outcome.longerThan_matched, Node.len_lift]
          exact decide_eq_false (Nat.not_lt.2 hle)
      rcases hround with ⟨-, ht⟩ | ⟨hlonger, -⟩
      · exact ⟨node, .ended (hended node rfl), ht⟩
      · rw [Seed.best, hshort] at hlonger
        cases hlonger

/-- **The whole loop.** Without a base that matches there is no match; otherwise the match of the
first such base is grown. -/
theorem growSeed_untried {fuel : Nat} (h : Round ctx top steps pos .untried s)
    (hrun : (growSeed (evaluateRule ctx top steps bases pos depth bound) top pos (fuel + 1)).run s =
      .ok ((), t)) :
    ∃ found, FirstBase ctx bases pos found ∧
      (found = none → Round ctx top steps pos .refused t) ∧
      ∀ base child, found = some (base, child) →
        ∃ final, Grows ctx top steps (child.lift top) final ∧
          Round ctx top steps pos (.grown final) t := by
  obtain ⟨given, hgives, hround⟩ := growSeed_round hgrow h hrun
  cases hgives with
  | @based _ found _ hbase =>
    refine ⟨found, hbase, ?_⟩
    cases found with
    | none =>
      rcases hround with ⟨-, ht⟩ | ⟨hlonger, -⟩
      · exact ⟨fun _ => ht, nofun⟩
      · cases hlonger
    | some item =>
      refine ⟨nofun, ?_⟩
      rintro base child ⟨⟩
      rcases hround with ⟨hshort, -⟩ | ⟨-, node, u, heq, hu, hrun⟩
      · cases hshort
      · cases heq
        refine growSeed_grows hgrow hu ?_ hrun
        intro other child' hother
        cases hbase.unique hother
        exact Nat.le_of_eq (Node.len_lift top child).symm

/-! ## Through the chart -/

/-- The rule comes under evaluation in an empty chart. -/
theorem Round.start (hstart : (Session.start ctx.input.size).Agrees s) :
    Round ctx top steps pos .untried (s.withCell top pos { active := true }) := by
  have hquiet : Session.Transparent ctx s Nowhere s :=
    ((Session.Transparent.start ctx).of_agrees hstart).rebase
  have hlt := hquiet.lt_width hgrow.within
  have hversion : s.versionAt pos = 0 := by
    rw [hstart.version, Session.versionAt, Session.columnAt_start]
  obtain ⟨htop, -⟩ := hgrow.form.not_plain hgrow.within
  refine ⟨hquiet.withCell hgrow.within htop _, ?_, ?_, ?_⟩
  · rw [Session.cellAt_withCell_self hlt, Session.versionAt_withCell hlt, hversion]
    rfl
  · intro node hnode
    cases hnode
  · intro step hstep
    rw [Session.cellAt_withCell hlt, if_neg fun heq => hgrow.form.id_ne_top hstep heq.1, hstart.cell,
      Session.cellAt_start]
    refine ⟨none, 0, rfl, Nat.zero_le _, fun _ outcome houtcome => ?_⟩
    cases houtcome

/-- The rule ends being under evaluation with its match marked. -/
theorem leave_run {given : Outcome} (h : Round ctx top steps pos seed s)
    (hrun : (do
      let cell := (← Session.cell top pos).leave .discovery (← Session.version pos)
      Session.setCell top pos cell
      return cell.result.getD .mismatch : MatchM Outcome).run s = .ok (given, t)) :
    given = (seed.node?.map fun node => .matched node.markGrown).getD .mismatch := by
  have hlt := h.quiet.lt_width hgrow.within
  rw [Session.run_bind_of_ok (Session.run_cell hlt), Session.run_bind_of_ok (Session.run_version hlt),
    Session.run_bind_of_ok Session.run_setCell, h.body] at hrun
  cases hrun
  cases seed <;> rfl

/-- **Matching a left-recursive rule** in an empty chart: without a base that matches there is no
match, and otherwise the match of the first such base is grown and marked. -/
theorem matchClause_grows {given : Outcome} (hstart : (Session.start ctx.input.size).Agrees s)
    (hrun : (matchClause ctx depth .discovery top pos bound).run s = .ok (given, t)) :
    ∃ found, FirstBase ctx bases pos found ∧ (found = none → given = .mismatch) ∧
      ∀ base child, found = some (base, child) →
        ∃ final, Grows ctx top steps (child.lift top) final ∧ given = .matched final.markGrown := by
  obtain ⟨less, hrun⟩ := matchClause_inv hgrow.within hgrow.form.body hrun
  have hround : Round ctx top steps pos .untried (s.withCell top pos { active := true }) :=
    .start hgrow hstart
  have hlt : pos < s.width := by
    have hlt := hround.quiet.lt_width hgrow.within
    rwa [Session.width_withCell] at hlt
  have hcell : s.cellAt top pos = {} := by rw [hstart.cell, Session.cellAt_start]
  have hversion : s.versionAt pos = 0 := by
    rw [hstart.version, Session.versionAt, Session.columnAt_start]
  rw [if_neg (show ¬(Clause.choice _).isReference = true from Bool.false_ne_true), matchThrough,
    Session.run_bind_of_ok (Session.run_version hlt), Session.run_bind_of_ok (Session.run_cell hlt),
    hcell, hversion] at hrun
  -- An empty cell answers no lookup; it is entered, and the rest is the loop and leaving it.
  have hentered : (do
      growSeed (evaluateRule ctx top steps bases pos less bound) top pos (ctx.input.size + 3)
      let cell := (← Session.cell top pos).leave .discovery (← Session.version pos)
      Session.setCell top pos cell
      return cell.result.getD .mismatch : MatchM Outcome).run
        (s.withCell top pos { active := true }) = .ok (given, t) := hrun
  obtain ⟨_, u, hloop, hleave⟩ := Session.run_bind_eq_ok.1 hentered
  obtain ⟨found, hfound, hnone, hsome⟩ := growSeed_untried hgrow hround hloop
  refine ⟨found, hfound, fun h => leave_run hgrow (hnone h) hleave, ?_⟩
  intro base child h
  obtain ⟨final, hfinal, hu⟩ := hsome base child h
  exact ⟨final, hfinal, leave_run hgrow hu hleave⟩

end growth

/-! ## Parses -/

/-- **A directly left-recursive rule is greedy and associates to the left.** Let the body of the top
rule be a choice between steps, which start with the rule itself, and bases, such that by the rules
alone the rest of every step has an outcome everywhere and every base has one at the start. Then a
parse without repairs gives a match if and only if some base matches at the start. The root is the
match of the first such base after its growth, which has one end: as long as the rest of a step
matches where the match ends and covers input, the first such step takes the match as its first
element. -/
theorem parse_grows {definitions : List Definition} {g : Grammar}
    (hb : Grammar.build definitions = .ok g) {rule input : String} {top : ClauseId}
    (hr : g.rule? rule = some top) {steps : List Step} {bases : List ClauseId}
    (hrec : g.LeftRecursive top steps bases) {config : Config} (hconfig : config.recovery = false)
    (hrows : ∀ step ∈ steps, ∀ pos ≤ input.length,
      ∃ row, PlainRow ⟨g, input.toList.toArray⟩ step.tail pos row)
    (hbases : ∀ base ∈ bases, ∃ outcome, Plain ⟨g, input.toList.toArray⟩ base 0 outcome) :
    ∃ p, parse g rule input config = .ok p ∧
      (p.isMatch = true ↔
        ∃ base ∈ bases, ∃ child, Plain ⟨g, input.toList.toArray⟩ base 0 (.matched child)) ∧
      (p.isMatch = true → ∃ base child final,
        FirstBase ⟨g, input.toList.toArray⟩ bases 0 (some (base, child)) ∧
        Grows ⟨g, input.toList.toArray⟩ top steps (child.lift top) final ∧
        (∀ other, Grows ⟨g, input.toList.toArray⟩ top steps (child.lift top) other → other = final) ∧
        p.root = final.markGrown) := by
  have hg : g.WellFormed := build_wellFormed hb
  rw [← size_toArray_toList input] at hrows
  have hgrow : Growable ⟨g, input.toList.toArray⟩ top steps bases 0 :=
    ⟨hg, hrec, Nat.zero_le _, hrows, hbases⟩
  obtain ⟨first, outcome, work, ⟨t, hrun⟩, hsound, hlast, hparse⟩ :=
    parse_phases hg hr input config
  obtain rfl := hlast (.inr hconfig)
  have hstart : (Session.start input.toList.toArray.size).Agrees
      (g.job rule top input config).opening := .of_chart_eq rfl
  obtain ⟨found, hfound, hnone, hsome⟩ := matchClause_grows hgrow hstart hrun
  refine ⟨_, hparse, ?_⟩
  rw [(g.job rule top input config).isMatch_assemble hsound]
  cases found with
  | none =>
    obtain rfl := hnone rfl
    refine ⟨⟨nofun, ?_⟩, nofun⟩
    rintro ⟨base, hbase, child, hchild⟩
    have hmatch : PlainNode ⟨g, input.toList.toArray⟩ base 0 (some child) := ⟨_, hchild, rfl⟩
    cases hmatch.unique (hfound.not_mem base hbase)
  | some item =>
    obtain ⟨base, child⟩ := item
    obtain ⟨final, hgrows, rfl⟩ := hsome base child rfl
    obtain ⟨hbase, outcome, hplain, hnode⟩ := hfound.mem
    cases outcome with
    | matched node =>
      cases hnode
      refine ⟨⟨fun _ => ⟨base, hbase, child, hplain⟩, fun _ => rfl⟩, fun _ => ?_⟩
      exact ⟨base, child, final, hfound, hgrows, fun _ hother => hother.unique hgrows, rfl⟩
    | mismatch | pending => cases hnode

/-- Sums and differences of numbers. -/
def chainDefinitions : List Definition :=
  [⟨"Chain", .choice [.seq [.reference "Chain", .lit "+", .reference "Num"],
      .seq [.reference "Chain", .lit "-", .reference "Num"], .reference "Num"]⟩,
    ⟨"Num", .plus (.range '0' '9')⟩]

/-- The grammar of sums and differences. -/
def chainGrammar : Grammar where
  clauses := #[.reference "Chain" 9, .literal ['+'], .reference "Num" 11, .seq [0, 1, 2],
    .reference "Chain" 9, .literal ['-'], .reference "Num" 11, .seq [4, 5, 6], .reference "Num" 11,
    .choice [3, 7, 8], .charClass [⟨'0', '9'⟩] false, .repeated 10 true]
  rules := [⟨"Chain", false, 9⟩, ⟨"Num", false, 11⟩]

/-- The sum and the difference as steps. -/
def chainSteps : List Step := [⟨3, 0, [1, 2]⟩, ⟨7, 4, [5, 6]⟩]

/-- The rule of sums and differences is left recursive. -/
theorem chain_leftRecursive : chainGrammar.LeftRecursive 9 chainSteps [8] where
  body := rfl
  steps_ne := nofun
  seq := by decide
  self := by
    have hself : ∀ step ∈ chainSteps,
        chainGrammar.clause? step.self = some (.reference "Chain" 9) := by decide
    exact fun step hstep => ⟨"Chain", hself step hstep⟩

/-- A difference and then a sum, with input that fits nowhere after them. -/
theorem parse_grows_chain :
    Grammar.build chainDefinitions = .ok chainGrammar ∧
      ∃ p, parse chainGrammar "Chain" "8-4+2?" ⟨false, false⟩ = .ok p ∧ p.isMatch = true ∧
        ∃ child final, FirstBase ⟨chainGrammar, "8-4+2?".toList.toArray⟩ [8] 0 (some (8, child)) ∧
          Grows ⟨chainGrammar, "8-4+2?".toList.toArray⟩ 9 chainSteps (child.lift 9) final ∧
          p.root = final.markGrown := by
  have hb : Grammar.build chainDefinitions = .ok chainGrammar := rfl
  have hr : chainGrammar.rule? "Chain" = some 9 := rfl
  have hconfig : (⟨false, false⟩ : Config).recovery = false := rfl
  let ctx : Context := ⟨chainGrammar, "8-4+2?".toList.toArray⟩
  have hrows : ∀ step ∈ chainSteps, ∀ pos ≤ "8-4+2?".length,
      ∃ row, PlainRow ⟨chainGrammar, "8-4+2?".toList.toArray⟩ step.tail pos row := by
    have hsome : ∀ step ∈ chainSteps, ∀ pos ≤ 6,
        (plainElements (plainAtFuel ctx 6) step.tail pos).isSome = true := by decide
    intro step hstep pos hpos
    obtain ⟨row, hrow⟩ := Option.isSome_iff_exists.1 (hsome step hstep pos hpos)
    exact ⟨row, 6, hrow⟩
  let number : Node := .lift 8 (.wrap 11 [.terminal 10 0 1] false)
  have hnumber : Plain ctx 8 0 (.matched number) := ⟨6, by decide⟩
  have hbases : ∀ base ∈ [8], ∃ outcome, Plain ctx base 0 outcome := by
    intro base hbase
    rw [List.mem_singleton.1 hbase]
    exact ⟨_, hnumber⟩
  obtain ⟨p, hparse, hmatch, hroot⟩ := parse_grows hb hr chain_leftRecursive hconfig hrows hbases
  have hsome : p.isMatch = true := hmatch.2 ⟨8, List.mem_singleton_self 8, number, hnumber⟩
  obtain ⟨base, child, final, hfirst, hgrows, -, heq⟩ := hroot hsome
  obtain rfl : base = 8 := List.mem_singleton.1 hfirst.mem.1
  exact ⟨hb, p, hparse, hsome, child, final, hfirst, hgrows, heq⟩

/-- The tree associates to the left: the difference is the first element of the sum. -/
example :
    let number (id : ClauseId) (pos : Nat) : Node := .lift id (.wrap 11 [.terminal 10 pos 1] false)
    let first := (number 8 0).lift 9
    let difference := (Step.row ⟨7, 4, [5, 6]⟩ first [.terminal 5 1 1, number 6 2]).lift 9
    let sum := (Step.row ⟨3, 0, [1, 2]⟩ difference [.terminal 1 3 1, number 2 4]).lift 9
    (parse chainGrammar "Chain" "8-4+2?" ⟨false, false⟩).toOption.map Parse.root =
      some sum.markGrown := by
  decide +kernel

end Packrat
