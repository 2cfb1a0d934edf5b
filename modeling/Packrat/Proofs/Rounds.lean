import Packrat.Proofs.LeftRecursion

/-!
# One round of growth

The chart finds out that a rule is left recursive when the rule is looked up while it is under
evaluation. From then on the rule is evaluated again and again, each time with its match so far in
the place of the rule. What one such round gives is said here.

* `Growable` — a left-recursive rule whose steps and bases have plain outcomes.
* `Seed` — what is known of the rule: nothing yet, that it has no match, or a match.
* `lookup_run`, `self_run` — a lookup of the rule under evaluation gives its match so far.
* `Seed.Gives`, `step_evaluate` — what a step gives with that match.
* **`Round`** — the invariant: the cell of the rule holds its match so far, and those of the steps
  hold what they give with it, or something stale.
* `step_run`, `base_run` — one alternative in a round; `firstAlternative_first` — a row of them.
* **`RoundGives`**, **`round_run`** — a whole round.
-/

namespace Packrat

/-- No cell of a chart. -/
abbrev Nowhere : ClauseId → Nat → Prop := fun _ _ => False

/-- **Whether a left-recursive rule can be grown** at a position of the input: the rest of every step
has a plain outcome everywhere, and every base has one at the position. -/
structure Growable (ctx : Context) (top : ClauseId) (steps : List Step) (bases : List ClauseId)
    (pos : Nat) : Prop where
  /-- The grammar is well formed. -/
  wellFormed : ctx.grammar.WellFormed
  /-- The rule is left recursive. -/
  form : ctx.grammar.LeftRecursive top steps bases
  /-- The position is one of the input. -/
  within : pos ≤ ctx.input.size
  /-- The rest of a step has an outcome. -/
  rows : ∀ step ∈ steps, ∀ place ≤ ctx.input.size, ∃ row, PlainRow ctx step.tail place row
  /-- A base has an outcome. -/
  bases : ∀ base ∈ bases, ∃ outcome, Plain ctx base pos outcome

/-! ## Seeds -/

/-- What is known of a left-recursive rule while it is under evaluation. -/
inductive Seed where
  /-- The rule has not been looked up. -/
  | untried
  /-- The rule has been looked up, and has no match yet. -/
  | refused
  /-- The rule has a match. -/
  | grown (node : Node)

namespace Seed

/-- What the cell of the rule holds. -/
def result : Seed → Option Outcome
  | untried => none
  | refused => some .mismatch
  | grown node => some (.matched node)

/-- The cell of the rule, in a column at a version. -/
def cell (seed : Seed) (version : Nat) : Cell :=
  { result := seed.result, active := true, leftRecursive := seed.result.isSome, version }

/-- The match of the rule. -/
def node? : Seed → Option Node
  | grown node => some node
  | _ => none

/-- What is known after a lookup. -/
def asked : Seed → Seed
  | untried => refused
  | seed => seed

/-- What a round has to outdo. -/
def best : Seed → Outcome
  | grown node => .matched node
  | _ => .mismatch

/-- After a lookup the cell of the rule holds what a round has to outdo. -/
theorem result_asked (seed : Seed) : seed.asked.result = some seed.best := by
  cases seed <;> rfl

/-- A second lookup changes nothing. -/
theorem asked_asked (seed : Seed) : seed.asked.asked = seed.asked := by
  cases seed <;> rfl

/-- After a lookup the cell of the rule answers every other one of its version. -/
theorem reusable?_cell {seed : Seed} (h : seed.asked = seed) (version pos inputLen : Nat) :
    (seed.cell version).reusable? .discovery version pos inputLen = seed.result := by
  cases seed with
  | untried => cases h
  | refused | grown node => simp [cell, result, Cell.reusable?, Cell.mustRetry]

end Seed

/-- The outcome of a step, from a match of the rule and what the elements after it match. -/
def Step.outcome (step : Step) (node : Node) : Option (List Node) → Outcome
  | none => .mismatch
  | some rest => .matched (step.row node rest)

/-- What a step gives while the rule is under evaluation. Nothing is known before the rule has been
looked up. -/
def Seed.Gives (ctx : Context) (step : Step) : Seed → Outcome → Prop
  | untried, _ => False
  | refused, outcome => outcome = .mismatch
  | grown node, outcome =>
    ∃ row, PlainRow ctx step.tail node.stop row ∧ outcome = step.outcome node row

/-! ## Lookups -/

/-- Matching a clause of the grammar within the input: a reference is evaluated, any other clause
matched through the chart. -/
theorem matchClause_inv {ctx : Context} {depth : Nat} {phase : Phase} {id : ClauseId} {clause : Clause}
    {pos : Nat} {bound : Option ClauseId} {s t : Session} {given : Outcome}
    (hpos : pos ≤ ctx.input.size) (hclause : ctx.grammar.clause? id = some clause)
    (hrun : (matchClause ctx depth phase id pos bound).run s = .ok (given, t)) :
    ∃ less,
      (if clause.isReference then evaluate ctx (matchClause ctx less) phase id clause pos bound
        else matchThrough ctx (evaluate ctx (matchClause ctx less) phase id clause pos bound) phase id
          pos).run s = .ok (given, t) := by
  cases depth with
  | zero => cases hrun
  | succ depth =>
    rw [matchClause_succ, matchWith_of_clause hpos hclause] at hrun
    exact ⟨depth, hrun⟩

section steps

variable {ctx : Context} {top : ClauseId} {steps : List Step} {bases : List ClauseId} {pos : Nat}
  {seed : Seed} {step : Step} {s t : Session} {given outcome : Outcome} {depth : Nat}
  {bound : Option ClauseId}

/-- **A lookup of the rule while it is under evaluation** gives its match so far. The first one shows
that it is left recursive. -/
theorem lookup_run {evaluation : MatchM Outcome} (hlt : pos < s.width)
    (hbody : s.cellAt top pos = seed.cell (s.versionAt pos))
    (hrun : (matchThrough ctx evaluation .discovery top pos).run s = .ok (given, t)) :
    given.node? = seed.node? ∧ (s.withCell top pos (seed.asked.cell (s.versionAt pos))).Agrees t := by
  rw [matchThrough, Session.run_bind_of_ok (Session.run_version hlt),
    Session.run_bind_of_ok (Session.run_cell hlt), hbody] at hrun
  cases seed with
  | untried =>
    cases hrun
    exact ⟨rfl, .of_chart_eq rfl⟩
  | refused | grown node =>
    have hself : (s.withCell top pos (s.cellAt top pos)).Agrees s := .withCell_self hlt
    rw [hbody] at hself
    rw [Seed.reusable?_cell rfl] at hrun
    cases hrun
    exact ⟨rfl, hself.trans (.of_chart_eq rfl)⟩

/-- The first element of a step is a lookup of the rule. -/
theorem self_run (hform : ctx.grammar.LeftRecursive top steps bases) (hpos : pos ≤ ctx.input.size)
    (hstep : step ∈ steps) (hlt : pos < s.width) (hbody : s.cellAt top pos = seed.cell (s.versionAt pos))
    (hrun : (matchClause ctx depth .discovery step.self pos bound).run s = .ok (given, t)) :
    given.node? = seed.node?.map (Node.lift step.self) ∧
      (s.withCell top pos (seed.asked.cell (s.versionAt pos))).Agrees t := by
  obtain ⟨name, hself⟩ := hform.self step hstep
  obtain ⟨less, hrun⟩ := matchClause_inv hpos hself hrun
  obtain ⟨found, u, hfound, hrun⟩ := Session.run_bind_eq_ok.1 hrun
  obtain ⟨less', hfound⟩ := matchClause_inv hpos hform.body hfound
  obtain ⟨hnode, hagrees⟩ := lookup_run hlt hbody hfound
  rw [← hnode]
  cases found with
  | matched node | mismatch | pending =>
    cases hrun
    exact ⟨rfl, hagrees⟩

/-! ## Steps -/

/-- A step gives one outcome. -/
theorem Seed.Gives.unique {outcome' : Outcome} (h : seed.Gives ctx step outcome)
    (h' : seed.Gives ctx step outcome') : outcome = outcome' := by
  cases seed with
  | untried => exact h.elim
  | refused => exact h.trans h'.symm
  | grown node =>
    obtain ⟨row, hrow, rfl⟩ := h
    obtain ⟨row', hrow', rfl⟩ := h'
    rw [hrow.unique hrow']

/-- A rule of which something is known has been looked up. -/
theorem Seed.Gives.asked_eq (h : seed.Gives ctx step outcome) : seed.asked = seed := by
  cases seed with
  | untried => exact h.elim
  | refused | grown node => rfl

/-- **Evaluating a step** gives what it is known to give, and leaves alone what has no plain
outcome, but for the lookup of the rule. -/
theorem step_evaluate {base : Session} (hgrow : Growable ctx top steps bases pos)
    (hstep : step ∈ steps) (hlt : pos < s.width)
    (hbody : s.cellAt top pos = seed.cell (s.versionAt pos))
    (hnode : ∀ node, seed = .grown node → node.pos = pos)
    (hbase : Session.Transparent ctx base Nowhere
      (s.withCell top pos (seed.asked.cell (s.versionAt pos))))
    (hgives : seed.asked.Gives ctx step outcome)
    (hrun : (evaluate ctx (matchClause ctx depth) .discovery step.id (.seq (step.self :: step.tail))
      pos bound).run s = .ok (given, t)) :
    given = outcome ∧ Session.Transparent ctx base Nowhere t := by
  obtain ⟨row, u, hrow, hrun⟩ := Session.run_bind_eq_ok.1 hrun
  rw [evaluateElements] at hrow
  obtain ⟨found, v, hfound, hrow⟩ := Session.run_bind_eq_ok.1 hrow
  obtain ⟨hlift, hagrees⟩ := self_run hgrow.form hgrow.within hstep hlt hbody hfound
  have hv := hbase.of_agrees hagrees
  cases seed with
  | untried | refused =>
    obtain rfl : outcome = .mismatch := hgives
    cases found with
    | matched node => cases hlift
    | mismatch | pending =>
      cases hrow
      cases hrun
      exact ⟨rfl, hv⟩
  | grown node =>
    cases found with
    | matched left =>
      obtain rfl : left = node.lift step.self := Option.some.inj hlift
      obtain ⟨expected, ⟨fuel, hfuel⟩, rfl⟩ := hgives
      have hplace : pos + (node.lift step.self).len = node.stop := by
        rw [Node.len_lift, Node.stop, hnode node rfl]
      obtain ⟨rest, w, hrest, hrow⟩ := Session.run_bind_eq_ok.1 hrow
      rw [hplace] at hrest
      have hfollows : Follows (Session.Transparent ctx base Nowhere)
          (evaluateElements ctx (matchClause ctx depth) .discovery step.id bound step.tail node.stop)
          (plainElements (plainAtFuel ctx fuel) step.tail node.stop) :=
        evaluateElements_follows
          (fun id place bound => matchClause_follows ctx id place bound fun _ _ h => h.elim)
          step.id bound step.tail node.stop
      obtain ⟨hw, rfl⟩ := (hfollows expected hfuel).of_ok hv hrest
      cases rest with
      | none | some rest =>
        cases hrow
        cases hrun
        exact ⟨rfl, hw⟩
    | mismatch | pending => cases hlift

end steps

/-! ## Rounds -/

/-- **The invariant of a round of growth** of the rule `top` at a position: the rule is under
evaluation with its match so far, a step holds at most what it gives with that match, or else
something stale, and all plain outcomes are plain. -/
structure Round (ctx : Context) (top : ClauseId) (steps : List Step) (pos : Nat) (seed : Seed)
    (s : Session) : Prop where
  /-- Cells with a plain outcome hold at most that. -/
  quiet : Session.Transparent ctx s Nowhere s
  /-- The cell of the rule holds its match so far. -/
  body : s.cellAt top pos = seed.cell (s.versionAt pos)
  /-- The match of the rule starts at the position and lies within the input. -/
  fits : ∀ node, seed = .grown node → node.pos = pos ∧ node.stop ≤ ctx.input.size
  /-- What the cells of the steps hold is right or stale. -/
  step : ∀ step ∈ steps, ∃ result version, s.cellAt step.id pos = { result, version } ∧
    version ≤ s.versionAt pos ∧ (version = s.versionAt pos → Yields result (seed.Gives ctx step))

/-- The session in which a step is under evaluation, once it has looked the rule up. -/
def Session.stepping (s : Session) (top : ClauseId) (step : Step) (pos version : Nat) (seed : Seed) :
    Session :=
  (s.withCell step.id pos { active := true, version }).withCell top pos
    (seed.asked.cell (s.versionAt pos))

/-- What the chart holds while a step is under evaluation. -/
theorem Session.reads_stepping {s : Session} {top : ClauseId} {step : Step} {pos : Nat}
    (version : Nat) (seed : Seed) (hlt : pos < s.width) (hne : step.id ≠ top) :
    (s.stepping top step pos version seed).versionAt pos = s.versionAt pos ∧
      (s.stepping top step pos version seed).cellAt top pos = seed.asked.cell (s.versionAt pos) ∧
      (s.stepping top step pos version seed).cellAt step.id pos = { active := true, version } ∧
      ∀ other, other ≠ top → other ≠ step.id →
        (s.stepping top step pos version seed).cellAt other pos = s.cellAt other pos := by
  have hlt' : pos < (s.withCell step.id pos { active := true, version }).width := by
    rwa [width_withCell]
  refine ⟨?_, cellAt_withCell_self hlt', ?_, fun other htop hstep => ?_⟩
  · rw [stepping, versionAt_withCell hlt', versionAt_withCell hlt]
  · rw [stepping, cellAt_withCell hlt', if_neg fun heq => hne heq.1, cellAt_withCell_self hlt]
  · rw [stepping, cellAt_withCell hlt', if_neg fun heq => htop heq.1, cellAt_withCell hlt,
      if_neg fun heq => hstep heq.1]

section rounds

variable {ctx : Context} {top : ClauseId} {steps : List Step} {bases : List ClauseId} {pos : Nat}
  {seed : Seed} {step : Step} {s t : Session} {given outcome : Outcome} {depth version : Nat}
  {bound : Option ClauseId}

/-- Only the shape, the versions and the cells of a chart matter to a round. -/
theorem Round.of_agrees (h : Round ctx top steps pos seed s) (hagrees : s.Agrees t) :
    Round ctx top steps pos seed t where
  quiet := (h.quiet.of_agrees hagrees).rebase
  body := by rw [hagrees.cell, hagrees.version, h.body]
  fits := h.fits
  step := by
    intro step hstep
    rw [hagrees.cell, hagrees.version]
    exact h.step step hstep

/-- The match so far fits after a lookup as well. -/
theorem Round.fits_asked (h : Round ctx top steps pos seed s) :
    ∀ node, seed.asked = .grown node → node.pos = pos ∧ node.stop ≤ ctx.input.size := by
  intro node hnode
  cases seed with
  | untried | refused => cases hnode
  | grown other => exact h.fits node hnode

variable (hgrow : Growable ctx top steps bases pos)
include hgrow

/-- Matching what has a plain outcome does not matter to a round. -/
theorem Round.of_transparent (h : Round ctx top steps pos seed s)
    (ht : Session.Transparent ctx s Nowhere t) : Round ctx top steps pos seed t := by
  obtain ⟨htop, hsteps⟩ := hgrow.form.not_plain hgrow.within
  refine ⟨ht.rebase, ?_, h.fits, ?_⟩
  · rw [ht.untouched not_false htop, ht.version, h.body]
  · intro step hstep
    rw [ht.untouched not_false (hsteps step hstep), ht.version]
    exact h.step step hstep

/-- Nothing with a plain outcome changes when a step comes under evaluation. -/
theorem Round.stepping (h : Round ctx top steps pos seed s) (hstep : step ∈ steps) :
    Session.Transparent ctx (s.stepping top step pos version seed) Nowhere
      (s.stepping top step pos version seed) := by
  obtain ⟨htop, hsteps⟩ := hgrow.form.not_plain hgrow.within
  exact (h.quiet.withCell hgrow.within (hsteps step hstep) _).withCell hgrow.within htop _

/-- A step that was evaluated is stored. -/
theorem Round.stepped (h : Round ctx top steps pos seed s) (hstep : step ∈ steps)
    (ht : Session.Transparent ctx (s.stepping top step pos version seed) Nowhere t)
    (hgives : seed.asked.Gives ctx step outcome) :
    Round ctx top steps pos seed.asked
      (t.withCell step.id pos { result := some outcome, version := t.versionAt pos }) := by
  obtain ⟨htop, hsteps⟩ := hgrow.form.not_plain hgrow.within
  have hne := hgrow.form.id_ne_top hstep
  have hlt := ht.lt_width hgrow.within
  obtain ⟨hversion, hbody, -, hothers⟩ :=
    Session.reads_stepping version seed (h.quiet.lt_width hgrow.within) hne
  rw [← ht.version] at hversion
  refine ⟨ht.rebase.withCell hgrow.within (hsteps step hstep) _, ?_, h.fits_asked, ?_⟩
  · rw [Session.versionAt_withCell hlt, hversion, Session.cellAt_withCell hlt,
      if_neg fun heq => hne heq.1.symm, ht.untouched not_false htop, hbody]
  · intro other hother
    rw [Session.versionAt_withCell hlt, hversion, Session.cellAt_withCell hlt]
    by_cases hsame : other.id = step.id
    · obtain rfl := hgrow.form.step_eq hstep hother hsame
      rw [if_pos ⟨rfl, rfl⟩]
      exact ⟨_, _, rfl, Nat.le_refl _, fun _ => Yields.pure hgives⟩
    · obtain ⟨result, version', hcell, hle, hresult⟩ := h.step other hother
      rw [if_neg fun heq => hsame heq.1, ht.untouched not_false (hsteps other hother),
        hothers other.id (hgrow.form.id_ne_top hother) hsame]
      refine ⟨result, version', hcell, hle, fun hnow stored hstored => ?_⟩
      have hstill := hresult hnow stored hstored
      rwa [hstill.asked_eq]

/-- **Matching a step in a round** gives what it gives after a lookup of the rule. -/
theorem step_run (h : Round ctx top steps pos seed s) (hstep : step ∈ steps)
    (hgives : seed.asked.Gives ctx step outcome)
    (hrun : (matchClause ctx depth .discovery step.id pos bound).run s = .ok (given, t)) :
    given = outcome ∧ Round ctx top steps pos seed.asked t := by
  obtain ⟨less, hrun⟩ := matchClause_inv hgrow.within (hgrow.form.seq step hstep) hrun
  obtain ⟨result, version, hcell, -, hresult⟩ := h.step step hstep
  have hlt := h.quiet.lt_width hgrow.within
  have hne := hgrow.form.id_ne_top hstep
  have hstored : version = s.versionAt pos → Yields result (· = outcome) := by
    intro hnow stored hsome
    have hstill := hresult hnow stored hsome
    rw [hstill.asked_eq] at hgives
    exact hstill.unique hgives
  have hempty : ∀ u, Session.Transparent ctx (s.stepping top step pos version seed) Nowhere u →
      pos < u.width ∧ ∃ version, u.cellAt step.id pos = { active := true, version } := by
    intro u hu
    refine ⟨hu.lt_width hgrow.within, version, ?_⟩
    rw [hu.untouched not_false ((hgrow.form.not_plain hgrow.within).2 step hstep)]
    exact (Session.reads_stepping version seed hlt hne).2.2.1
  have heval : ∀ counted value u,
      (evaluate ctx (matchClause ctx less) .discovery step.id (.seq (step.self :: step.tail)) pos
        bound).run counted = .ok (value, u) →
      (s.withCell step.id pos { active := true, version }).Agrees counted →
      value = outcome ∧
        Session.Transparent ctx (s.stepping top step pos version seed) Nowhere u := by
    intro counted value u hvalue hcounted
    have hlt' : pos < (s.withCell step.id pos { active := true, version }).width := by
      rwa [Session.width_withCell]
    have hversion : counted.versionAt pos = s.versionAt pos := by
      rw [hcounted.version, Session.versionAt_withCell hlt]
    refine step_evaluate hgrow hstep (by rwa [hcounted.width]) ?_
      (fun node hnode => (h.fits node hnode).1) ?_ hgives hvalue
    · rw [hcounted.cell, Session.cellAt_withCell hlt, if_neg fun heq => hne heq.1.symm, h.body,
        hversion]
    · rw [hversion]
      exact (h.stepping hgrow hstep).of_agrees (hcounted.withCell hlt' _)
  obtain ⟨rfl, ⟨hnow, hsome, hagrees⟩ | ⟨u, hu, hagrees⟩⟩ :=
    matchThrough_once hlt hcell hstored hempty heval hrun
  · have hstill := hresult hnow given hsome
    rw [hstill.asked_eq]
    exact ⟨rfl, h.of_agrees hagrees⟩
  · exact ⟨rfl, (h.stepped hgrow hstep hu hgives).of_agrees hagrees⟩

/-- **Matching a base in a round** gives its plain outcome. -/
theorem base_run (h : Round ctx top steps pos seed s) {base : ClauseId} (hbase : base ∈ bases)
    (hrun : (matchClause ctx depth .discovery base pos bound).run s = .ok (given, t)) :
    Round ctx top steps pos seed t ∧ PlainNode ctx base pos given.node? := by
  obtain ⟨outcome, fuel, hfuel⟩ := hgrow.bases base hbase
  have hfollows : Ensures True (Session.Transparent ctx s Nowhere)
      (matchClause ctx depth .discovery base pos bound) (· = outcome) :=
    matchClause_follows ctx base pos bound (fun _ _ h => h.elim) outcome hfuel
  obtain ⟨ht, rfl⟩ := hfollows.of_ok h.quiet hrun
  exact ⟨h.of_transparent hgrow ht, given, ⟨fuel, hfuel⟩, rfl⟩

end rounds

/-! ## Choices -/

/-- **A choice in the first phase**, part of whose alternatives stand for the items of a list: the
first item that gives a match decides, and if there is none then the other alternatives do. -/
theorem firstAlternative_first {α : Type} {I : Session → Prop} {gives : α → Option Node → Prop}
    {toId : α → ClauseId} {matcher : Matcher} {pos : Nat} {bound : Option ClauseId}
    {others : List ClauseId} : ∀ {items : List α} {s t : Session} {given : Option Node},
    (∀ a ∈ items, ∀ s outcome t, I s →
      (matcher .discovery (toId a) pos bound).run s = .ok (outcome, t) →
      I t ∧ gives a outcome.node?) → I s →
    (firstAlternative matcher .discovery pos bound (items.map toId ++ others)).run s =
      .ok (given, t) →
    ∃ found, FirstOf gives items found ∧
      (∀ a node, found = some (a, node) → given = some node ∧ I t) ∧
      (found = none → ∃ u, I u ∧
        (firstAlternative matcher .discovery pos bound others).run u = .ok (given, t))
  | [], s, t, given, _, hs, hrun => by
    refine ⟨none, .nil, ?_, fun _ => ⟨s, hs, hrun⟩⟩
    intro a node hnone
    cases hnone
  | a :: rest, s, t, given, h, hs, hrun => by
    rw [List.map_cons, List.cons_append, firstAlternative] at hrun
    obtain ⟨outcome, u, houtcome, hrun⟩ := Session.run_bind_eq_ok.1 hrun
    obtain ⟨hu, hgives⟩ := h a List.mem_cons_self s outcome u hs houtcome
    cases outcome with
    | matched node =>
      cases hrun
      refine ⟨some (a, node), .here hgives, ?_, ?_⟩
      · rintro _ _ ⟨⟩
        exact ⟨rfl, hu⟩
      · intro hnone
        cases hnone
    | mismatch | pending =>
      obtain ⟨found, hfound, hsome, hnone⟩ :=
        firstAlternative_first (fun b hb => h b (List.mem_cons_of_mem a hb)) hu hrun
      exact ⟨found, .later hgives hfound, hsome, hnone⟩

/-- What a step gives, as a node. -/
def Seed.GivesNode (ctx : Context) (seed : Seed) (step : Step) (node : Option Node) : Prop :=
  ∃ outcome, seed.Gives ctx step outcome ∧ outcome.node? = node

/-- The outcome of the rule by its bases. -/
def baseOutcome (top : ClauseId) : Option (ClauseId × Node) → Outcome
  | none => .mismatch
  | some (_, child) => .matched (child.lift top)

/-- **What a round gives**: with a match of the rule, what the first step gives that goes on, and
otherwise what the first base gives that matches. -/
inductive RoundGives (ctx : Context) (top : ClauseId) (steps : List Step) (bases : List ClauseId)
    (pos : Nat) : Seed → Outcome → Prop where
  | stepped {node : Node} {step : Step} {rest : List Node} :
      FirstStep ctx steps node.stop (some (step, rest)) →
      RoundGives ctx top steps bases pos (.grown node) (.matched ((step.row node rest).lift top))
  | based {seed : Seed} {found : Option (ClauseId × Node)} :
      (∀ node, seed = .grown node → FirstStep ctx steps node.stop none) →
      FirstBase ctx bases pos found → RoundGives ctx top steps bases pos seed (baseOutcome top found)

section choices

variable {ctx : Context} {top : ClauseId} {steps : List Step} {bases : List ClauseId} {pos : Nat}
  {seed : Seed} {step : Step} {s t : Session} {depth : Nat} {bound : Option ClauseId}

/-- While the rule has no match, no step has one. -/
theorem FirstOf.eq_none_of_refused {found : Option (Step × Node)}
    (h : FirstOf (Seed.refused.GivesNode ctx) steps found) : found = none := by
  cases found with
  | none => rfl
  | some item =>
    obtain ⟨outcome, rfl, hnode⟩ := h.mem.2
    cases hnode

/-- With a match of the rule, the first step whose rest matches decides. -/
theorem FirstOf.of_grown {node : Node} {found : Option (Step × Node)}
    (h : FirstOf ((Seed.grown node).GivesNode ctx) steps found) :
    ∃ rest, FirstStep ctx steps node.stop rest ∧
      found = rest.map fun item => (item.1, item.1.row node item.2) := by
  have hmap : ∀ step row, (Seed.grown node).GivesNode ctx step row →
      ∃ rest, PlainRow ctx step.tail node.stop rest ∧ row = rest.map (step.row node) := by
    rintro step _ ⟨_, ⟨rest, hrest, rfl⟩, rfl⟩
    refine ⟨rest, hrest, ?_⟩
    cases rest <;> rfl
  exact FirstOf.of_map hmap h

variable (hgrow : Growable ctx top steps bases pos)
include hgrow

/-- A step gives something after a lookup of the rule. -/
theorem Round.exists_gives (h : Round ctx top steps pos seed s) (hstep : step ∈ steps) :
    ∃ outcome, seed.asked.Gives ctx step outcome := by
  cases seed with
  | untried | refused => exact ⟨_, rfl⟩
  | grown node =>
    obtain ⟨row, hrow⟩ := hgrow.rows step hstep node.stop (h.fits node rfl).2
    exact ⟨_, row, hrow, rfl⟩

/-- A step in a round, as a node. -/
theorem step_run_node {outcome : Outcome} (hstep : step ∈ steps) (h : Round ctx top steps pos seed s)
    (hrun : (matchClause ctx depth .discovery step.id pos bound).run s = .ok (outcome, t)) :
    Round ctx top steps pos seed.asked t ∧ seed.asked.GivesNode ctx step outcome.node? := by
  obtain ⟨expected, hgives⟩ := h.exists_gives hgrow hstep
  obtain ⟨rfl, ht⟩ := step_run hgrow h hstep hgives hrun
  exact ⟨ht, outcome, hgives, rfl⟩

/-- **Matching steps in a round.** The first one looks the rule up, if this has not been done. -/
theorem steps_run {given : Option Node} {items : List Step} (hsub : ∀ step ∈ items, step ∈ steps)
    (hne : items ≠ []) (h : Round ctx top steps pos seed s)
    (hrun : (firstAlternative (matchClause ctx depth) .discovery pos bound
      (items.map Step.id ++ bases)).run s = .ok (given, t)) :
    ∃ found, FirstOf (seed.asked.GivesNode ctx) items found ∧
      (∀ step node, found = some (step, node) →
        given = some node ∧ Round ctx top steps pos seed.asked t) ∧
      (found = none → ∃ u, Round ctx top steps pos seed.asked u ∧
        (firstAlternative (matchClause ctx depth) .discovery pos bound bases).run u =
          .ok (given, t)) := by
  obtain ⟨first, others, rfl⟩ := List.exists_cons_of_ne_nil hne
  rw [List.map_cons, List.cons_append, firstAlternative] at hrun
  obtain ⟨outcome, u, houtcome, hrun⟩ := Session.run_bind_eq_ok.1 hrun
  obtain ⟨hu, hgives⟩ := step_run_node hgrow (hsub first List.mem_cons_self) h houtcome
  cases outcome with
  | matched node =>
    cases hrun
    refine ⟨some (first, node), .here hgives, ?_, ?_⟩
    · rintro _ _ ⟨⟩
      exact ⟨rfl, hu⟩
    · intro hnone
      cases hnone
  | mismatch | pending =>
    -- From here on the rule has been looked up, and another lookup changes nothing.
    have hothers : ∀ step ∈ others, ∀ s outcome t, Round ctx top steps pos seed.asked s →
        (matchClause ctx depth .discovery step.id pos bound).run s = .ok (outcome, t) →
        Round ctx top steps pos seed.asked t ∧ seed.asked.GivesNode ctx step outcome.node? := by
      intro step hstep s outcome t hs hrun
      have hnode := step_run_node hgrow (hsub step (List.mem_cons_of_mem _ hstep)) hs hrun
      rwa [Seed.asked_asked] at hnode
    obtain ⟨found, hfound, hsome, hnone⟩ := firstAlternative_first hothers hu hrun
    exact ⟨found, .later hgives hfound, hsome, hnone⟩

/-- **Matching the bases in a round.** -/
theorem bases_run {given : Option Node} (h : Round ctx top steps pos seed s)
    (hrun : (firstAlternative (matchClause ctx depth) .discovery pos bound bases).run s =
      .ok (given, t)) :
    ∃ found, FirstBase ctx bases pos found ∧ given = found.map Prod.snd ∧
      Round ctx top steps pos seed t := by
  have hmap : bases = bases.map id ++ [] := by rw [List.map_id, List.append_nil]
  rw [hmap] at hrun
  obtain ⟨found, hfound, hsome, hnone⟩ :=
    firstAlternative_first (fun base hbase s outcome t hs hrun => base_run hgrow hs hbase hrun) h hrun
  refine ⟨found, hfound, ?_⟩
  cases found with
  | some item => exact hsome item.1 item.2 rfl
  | none =>
    obtain ⟨u, hu, hrun⟩ := hnone rfl
    cases hrun
    exact ⟨rfl, hu⟩

/-- **A round of growth**: one evaluation of the body of the rule. -/
theorem round_run {given : Outcome} (h : Round ctx top steps pos seed s)
    (hrun : (evaluate ctx (matchClause ctx depth) .discovery top
      (.choice (steps.map Step.id ++ bases)) pos bound).run s = .ok (given, t)) :
    RoundGives ctx top steps bases pos seed given ∧ Round ctx top steps pos seed.asked t := by
  rw [evaluate, evaluateChoice, chooseAlternative_discovery] at hrun
  obtain ⟨chosen, u, hchosen, hrun⟩ := Session.run_bind_eq_ok.1 hrun
  obtain ⟨found, hfound, hsome, hnone⟩ :=
    steps_run hgrow (fun _ hstep => hstep) hgrow.form.steps_ne h hchosen
  cases found with
  | some item =>
    obtain ⟨rfl, hu⟩ := hsome item.1 item.2 rfl
    cases hrun
    cases seed with
    | untried | refused => cases hfound.eq_none_of_refused
    | grown node =>
      obtain ⟨rest, hrest, heq⟩ := hfound.of_grown
      obtain ⟨⟨step, row⟩, rfl, rfl⟩ := Option.map_eq_some_iff.1 heq.symm
      exact ⟨.stepped hrest, hu⟩
  | none =>
    obtain ⟨v, hv, hchosen⟩ := hnone rfl
    obtain ⟨base, hbase, rfl, hu⟩ := bases_run hgrow hv hchosen
    have hended : ∀ node, seed = .grown node → FirstStep ctx steps node.stop none := by
      rintro node rfl
      obtain ⟨rest, hrest, heq⟩ := hfound.of_grown
      obtain rfl := Option.map_eq_none_iff.1 heq.symm
      exact hrest
    have hgives : RoundGives ctx top steps bases pos seed (baseOutcome top base) :=
      .based hended hbase
    cases base with
    | none | some base =>
      cases hrun
      exact ⟨hgives, hu⟩

/-- What a round gives starts where the rule is matched and lies within the input. -/
theorem RoundGives.fits {node : Node} (h : RoundGives ctx top steps bases pos seed (.matched node))
    (hseed : ∀ node, seed = .grown node → node.pos = pos ∧ node.stop ≤ ctx.input.size) :
    node.pos = pos ∧ node.stop ≤ ctx.input.size := by
  generalize houtcome : Outcome.matched node = outcome at h
  cases h with
  | @stepped before step rest hfirst =>
    cases houtcome
    obtain ⟨hstart, hle⟩ := hseed before rfl
    obtain ⟨hsame, -, hwithin⟩ := hfirst.len_row hgrow.wellFormed top hle
    exact ⟨hsame.trans hstart, hwithin⟩
  | @based _ found _ hbase =>
    cases found with
    | none => cases houtcome
    | some item =>
      cases houtcome
      rw [Node.pos_lift, Node.stop_lift]
      exact FirstBase.fits hgrow.wellFormed hgrow.within hbase

end choices
end Packrat
