import Packrat.Proofs.Parsing
import Packrat.Proofs.PlainMatching

/-!
# The chart is transparent

Where plain evaluation has an outcome, matching through the chart has the same one. Plain evaluation
never meets a clause again at a position where it is being evaluated, or it would not end; so no cell
turns out to be left recursive, no version moves, and a stored result is a plain outcome.

* `Follows` — a computation gives the plain result, if it gives one.
* `evaluate_follows` — an evaluation in the first phase goes by the plain rules.
* **`Session.Transparent`** — the invariant: a cell is empty and under evaluation, or holds at most a
  plain outcome, or has none and stays as it was.
* `matchThrough_once` — the step through one cell that is not left recursive.
* `matchThrough_transparent`, `matchClause_follows` — the step through one cell, and any clause.
* `Plain.run` — through any sound chart, in the middle of a run or not.
* **`parse_eq_plain`** — a parse without repairs gives the plain outcome of its top rule.
-/

namespace Packrat

/-! ## Following the rules -/

/-- Whether a computation keeps `I` and gives the plain result, if there is one and the computation
does not break off. -/
def Follows {α : Type} (I : Session → Prop) (m : MatchM α) (plain : Option α) : Prop :=
  Yields plain fun a => Ensures True I m (· = a)

namespace Follows

variable {α β : Type} {I : Session → Prop}

/-- A result that is given. -/
theorem pure (a : α) : Follows I (Pure.pure a) (Pure.pure a) := Yields.pure (Ensures.pure rfl)

/-- Breaking off. -/
theorem throw {e : Fault} {plain : Option α} : Follows I (MonadExcept.throw e) plain :=
  fun _ _ => .throw trivial

/-- One step after another. -/
theorem bind {m : MatchM α} {plain : Option α} {f : α → MatchM β} {g : α → Option β}
    (hm : Follows I m plain) (hf : ∀ a, Follows I (f a) (g a)) :
    Follows I (m >>= f) (plain >>= g) := by
  intro b hb
  obtain ⟨a, ha, hb⟩ := Option.bind_eq_some_iff.1 hb
  refine .bind (hm a ha) fun a' heq => ?_
  subst heq
  exact hf a' b hb

end Follows

section evaluation

variable {ctx : Context} {I : Session → Prop} {matcher : Matcher} {plain : PlainMatcher}
  (h : ∀ id pos bound, Follows I (matcher .discovery id pos bound) (plain id pos))
include h

/-- The elements of a sequence. -/
theorem evaluateElements_follows (id : ClauseId) (bound : Option ClauseId) :
    ∀ (elements : List ClauseId) (pos : Nat),
      Follows I (evaluateElements ctx matcher .discovery id bound elements pos)
        (plainElements plain elements pos)
  | [], _ => .pure _
  | element :: rest, pos => by
    rw [evaluateElements, plainElements]
    refine .bind (h _ _ _) fun outcome => ?_
    cases outcome with
    | matched node => exact .bind (evaluateElements_follows id bound rest _) fun _ => .pure _
    | _ => exact .pure none

/-- The alternatives of a choice. -/
theorem firstAlternative_follows (pos : Nat) (bound : Option ClauseId) :
    ∀ alternatives : List ClauseId,
      Follows I (firstAlternative matcher .discovery pos bound alternatives)
        (plainFirst plain pos alternatives)
  | [] => .pure _
  | alternative :: rest => by
    rw [firstAlternative, plainFirst]
    refine .bind (h _ _ _) fun outcome => ?_
    cases outcome with
    | matched node => exact .pure _
    | _ => exact firstAlternative_follows pos bound rest

/-- The alternative that a choice takes. -/
theorem chooseAlternative_follows (pos : Nat) (bound : Option ClauseId)
    (alternatives : List ClauseId) :
    Follows I (chooseAlternative matcher .discovery pos bound alternatives)
      (plainFirst plain pos alternatives) := by
  rw [chooseAlternative_discovery]
  exact firstAlternative_follows h pos bound alternatives

/-- The iterations of a repetition. Rounds run out on either side alone: plain evaluation has no
outcome then, and the computation breaks off. -/
theorem iterate_follows (id item : ClauseId) (bound : Option ClauseId) :
    ∀ fuel rounds pos : Nat,
      Follows I (iterate ctx matcher .discovery id item bound fuel pos false)
        (plainIterations ctx plain item rounds pos)
  | 0, _, _ => .throw
  | _ + 1, 0, _ => nofun
  | fuel + 1, rounds + 1, pos => by
    have hreached : boundReached matcher .discovery bound pos = pure false := rfl
    rw [iterate, plainIterations, hreached, pure_bind]
    split
    · exact .pure _
    · refine .bind (h _ _ _) fun outcome => ?_
      cases outcome with
      | matched node =>
        show Follows I (if node.len = 0 then _ else _) (if node.len = 0 then _ else _)
        split
        · exact .pure _
        · exact .bind (iterate_follows id item bound fuel rounds _) fun _ => .pure _
      | _ => exact .pure _

/-- **An evaluation in the first phase goes by the plain rules**, if the matcher does. -/
theorem evaluate_follows (rounds : Nat) (id : ClauseId) (clause : Clause) (pos : Nat)
    (bound : Option ClauseId) :
    Follows I (evaluate ctx matcher .discovery id clause pos bound)
      (plainClause ctx plain rounds id clause pos) := by
  cases clause with
  | literal text => exact .pure _
  | char c => exact .pure _
  | charClass ranges inverted => exact .pure _
  | anyChar => exact .pure _
  | empty => exact .pure _
  | seq elements =>
    refine .bind (evaluateElements_follows h id bound elements pos) fun result => ?_
    rcases result with _ | ⟨_ | _⟩ <;> exact .pure _
  | choice alternatives =>
    refine .bind (chooseAlternative_follows h pos bound alternatives) fun result => ?_
    split <;> exact .pure _
  | repeated item atLeastOne =>
    refine .bind (iterate_follows h id item bound _ rounds pos) fun result => ?_
    obtain ⟨nodes, short⟩ := result
    cases nodes <;> exact .pure _
  | optional item | reference name item =>
    refine .bind (h _ _ _) fun outcome => ?_
    cases outcome <;> exact .pure _
  | ahead item | notAhead item =>
    refine .bind (h _ _ _) fun outcome => ?_
    split <;> exact .pure _

end evaluation

/-! ## The invariant -/

/-- **The invariant of a chart that only plain outcomes go through**, since it was that of the session
`base`, while the cells of `busy` are under evaluation. -/
structure Session.Transparent (ctx : Context) (base : Session) (busy : ClauseId → Nat → Prop)
    (s : Session) : Prop where
  /-- There is a column for each position. -/
  width : s.width = ctx.input.size + 1
  /-- No position was made stale. -/
  version : ∀ {pos}, s.versionAt pos = base.versionAt pos
  /-- A cell under evaluation is empty; in particular, it has not been looked up. -/
  underway : ∀ {id pos}, busy id pos → ∃ version, s.cellAt id pos = { active := true, version }
  /-- Any other cell with a plain outcome holds at most that. -/
  settled : ∀ {id pos outcome}, ¬busy id pos → Plain ctx id pos outcome →
    ∃ result version, s.cellAt id pos = { result, version } ∧ Yields result (Plain ctx id pos)
  /-- Nothing happens to the others. -/
  untouched : ∀ {id pos}, ¬busy id pos → (∀ outcome, ¬Plain ctx id pos outcome) →
    s.cellAt id pos = base.cellAt id pos

namespace Session.Transparent

variable {ctx : Context} {base s : Session} {busy : ClauseId → Nat → Prop} {id : ClauseId} {pos : Nat}

/-- Every position of the input has a column. -/
theorem lt_width (h : Transparent ctx base busy s) (hpos : pos ≤ ctx.input.size) :
    pos < s.width := by
  rw [h.width]
  omega

/-- Before anything was tried the chart is empty, and nothing is under evaluation. -/
theorem start (ctx : Context) :
    Transparent ctx (Session.start ctx.input.size) (fun _ _ => False)
      (Session.start ctx.input.size) where
  width := width_start _
  version := rfl
  underway := False.elim
  settled := by
    intro other place outcome _ _
    refine ⟨none, 0, cellAt_start _, ?_⟩
    intro outcome houtcome
    cases houtcome
  untouched := fun _ _ => rfl

/-- Only the shape, the versions and the cells of a chart matter. -/
theorem of_agrees {t : Session} (h : Transparent ctx base busy s) (hagrees : s.Agrees t) :
    Transparent ctx base busy t where
  width := by rw [hagrees.width, h.width]
  version := by
    intro place
    rw [hagrees.version, h.version]
  underway := by
    intro other place hbusy
    rw [hagrees.cell]
    exact h.underway hbusy
  settled := by
    intro other place outcome hbusy hplain
    rw [hagrees.cell]
    exact h.settled hbusy hplain
  untouched := by
    intro other place hbusy hnone
    rw [hagrees.cell, h.untouched hbusy hnone]

/-- Events and counters do not matter. -/
theorem of_chart_eq {t : Session} (h : Transparent ctx base busy s) (heq : t.chart = s.chart) :
    Transparent ctx base busy t := h.of_agrees (.of_chart_eq heq)

/-- A cell comes under evaluation. -/
theorem entered (h : Transparent ctx base busy s) (hpos : pos ≤ ctx.input.size) (version : Nat) :
    Transparent ctx base (Entering busy id pos) (s.withCell id pos { active := true, version }) where
  width := by rw [width_withCell, h.width]
  version := by
    intro place
    rw [versionAt_withCell (h.lt_width hpos), h.version]
  underway := by
    intro other place hbusy
    rw [cellAt_withCell (h.lt_width hpos)]
    split
    · exact ⟨version, rfl⟩
    · rename_i hne
      exact h.underway (hbusy.resolve_right hne)
  settled := by
    intro other place outcome hbusy hplain
    rw [cellAt_withCell (h.lt_width hpos), if_neg fun heq => hbusy (.inr heq)]
    exact h.settled (fun hother => hbusy (.inl hother)) hplain
  untouched := by
    intro other place hbusy hnone
    rw [cellAt_withCell (h.lt_width hpos), if_neg fun heq => hbusy (.inr heq)]
    exact h.untouched (fun hother => hbusy (.inl hother)) hnone

/-- A cell that comes under evaluation gets its outcome. -/
theorem left (h : Transparent ctx base (Entering busy id pos) s) (hpos : pos ≤ ctx.input.size)
    (hfree : ¬busy id pos) {outcome : Outcome} (hplain : Plain ctx id pos outcome) (version : Nat) :
    Transparent ctx base busy (s.withCell id pos { result := some outcome, version }) where
  width := by rw [width_withCell, h.width]
  version := by
    intro place
    rw [versionAt_withCell (h.lt_width hpos), h.version]
  underway := by
    intro other place hbusy
    have hne : ¬(other = id ∧ place = pos) := by
      rintro ⟨rfl, rfl⟩
      exact hfree hbusy
    rw [cellAt_withCell (h.lt_width hpos), if_neg hne]
    exact h.underway (.inl hbusy)
  settled := by
    intro other place outcome' hbusy hplain'
    rw [cellAt_withCell (h.lt_width hpos)]
    split
    · rename_i heq
      obtain ⟨rfl, rfl⟩ := heq
      exact ⟨_, version, rfl, Yields.pure hplain⟩
    · rename_i hne
      exact h.settled (fun hother => hother.elim hbusy hne) hplain'
  untouched := by
    intro other place hbusy hnone
    have hne : ¬(other = id ∧ place = pos) := by
      rintro ⟨rfl, rfl⟩
      exact hnone outcome hplain
    rw [cellAt_withCell (h.lt_width hpos), if_neg hne]
    exact h.untouched (fun hother => hother.elim hbusy hne) hnone

/-- A chart is transparent since it was as it is. -/
theorem rebase (h : Transparent ctx base busy s) : Transparent ctx s busy s :=
  { h with
    version := rfl
    untouched := fun _ _ => rfl }

/-- Storing a cell that has no plain outcome. -/
theorem withCell (h : Transparent ctx s (fun _ _ => False) s) (hpos : pos ≤ ctx.input.size)
    (hnone : ∀ outcome, ¬Plain ctx id pos outcome) (cell : Cell) :
    Transparent ctx (s.withCell id pos cell) (fun _ _ => False) (s.withCell id pos cell) where
  width := by rw [width_withCell, h.width]
  version := rfl
  underway := False.elim
  settled := by
    intro other place outcome _ hplain
    have hne : ¬(other = id ∧ place = pos) := by
      rintro ⟨rfl, rfl⟩
      exact hnone outcome hplain
    rw [cellAt_withCell (h.lt_width hpos), if_neg hne]
    exact h.settled not_false hplain
  untouched := fun _ _ => rfl

/-- Making a position stale. -/
theorem bumped (h : Transparent ctx s (fun _ _ => False) s) (hpos : pos ≤ ctx.input.size) :
    Transparent ctx (s.bumped pos) (fun _ _ => False) (s.bumped pos) where
  width := by rw [width_bumped, h.width]
  version := rfl
  underway := False.elim
  settled := by
    intro other place outcome _ hplain
    rw [cellAt_bumped (h.lt_width hpos)]
    exact h.settled not_false hplain
  untouched := fun _ _ => rfl

end Session.Transparent

/-! ## Through the chart -/

/-- A result that is stored without left recursion answers every lookup of its phase and version. -/
theorem Cell.reusable?_result (result : Option Outcome) (version now pos inputLen : Nat) :
    ({ result, version } : Cell).reusable? .discovery now pos inputLen =
      if version = now then result else none := by
  cases result with
  | none => simp [Cell.reusable?]
  | some outcome => simp [Cell.reusable?, Cell.mustRetry, Option.filter_some]

/-- A cell without left recursion is empty once it is entered, unless it answers the lookup. -/
theorem Cell.enter_eq {result : Option Outcome} {version now : Nat}
    (h : (if version = now then result else none) = none) :
    ({ result, version } : Cell).enter .discovery now = { active := true, version } := by
  by_cases hnow : version = now
  · rw [if_pos hnow] at h
    subst h
    simp [Cell.enter, hnow]
  · simp [Cell.enter, hnow]

section chart

variable {ctx : Context} {s t : Session} {id : ClauseId} {pos : Nat} {evaluation : MatchM Outcome}
  {outcome given : Outcome} {I : Session → Prop}

/-- Growing a match takes one round if the cell is still empty after it: its clause is not left
recursive then. -/
theorem growSeed_once
    (hempty : ∀ u, I u → pos < u.width ∧ ∃ version, u.cellAt id pos = { active := true, version })
    (heval : ∀ counted value u, evaluation.run counted = .ok (value, u) → s.Agrees counted →
      value = outcome ∧ I u) {fuel : Nat}
    (hrun : (growSeed evaluation id pos (fuel + 1)).run s = .ok ((), t)) :
    ∃ u version, I u ∧ t = u.withCell id pos { active := true, result := some outcome, version } := by
  rw [growSeed, Session.run_bind_of_ok Session.run_tally] at hrun
  obtain ⟨value, u, hvalue, hrun⟩ := Session.run_bind_eq_ok.1 hrun
  obtain ⟨rfl, hu⟩ := heval _ value u hvalue (.of_chart_eq rfl)
  obtain ⟨hlt, version, hcell⟩ := hempty u hu
  rw [Session.run_bind_of_ok (Session.run_cell hlt), hcell] at hrun
  cases hrun
  exact ⟨u, version, hu, rfl⟩

/-- **Matching through a cell that is neither under evaluation nor left recursive**: what it holds at
the present version is given, and otherwise its clause is evaluated once and the outcome stored. -/
theorem matchThrough_once {result : Option Outcome} {version : Nat} (hlt : pos < s.width)
    (hcell : s.cellAt id pos = { result, version })
    (hstored : version = s.versionAt pos → Yields result (· = outcome))
    (hempty : ∀ u, I u → pos < u.width ∧ ∃ version, u.cellAt id pos = { active := true, version })
    (heval : ∀ counted value u, evaluation.run counted = .ok (value, u) →
      (s.withCell id pos { active := true, version }).Agrees counted → value = outcome ∧ I u)
    (hrun : (matchThrough ctx evaluation .discovery id pos).run s = .ok (given, t)) :
    given = outcome ∧ (version = s.versionAt pos ∧ result = some outcome ∧ s.Agrees t ∨
      ∃ u, I u ∧
        (u.withCell id pos { result := some outcome, version := u.versionAt pos }).Agrees t) := by
  rw [matchThrough, Session.run_bind_of_ok (Session.run_version hlt),
    Session.run_bind_of_ok (Session.run_cell hlt), hcell, Cell.reusable?_result] at hrun
  cases hreuse : (if version = s.versionAt pos then result else none) with
  | some stored =>
    rw [hreuse] at hrun
    obtain ⟨hnow, hresult⟩ := Option.ite_none_right_eq_some.1 hreuse
    obtain rfl : stored = outcome := hstored hnow stored hresult
    have hanswer : given = stored ∧ t.chart = s.chart := by
      cases hrun
      exact ⟨rfl, rfl⟩
    exact ⟨hanswer.1, .inl ⟨hnow, hresult, .of_chart_eq hanswer.2⟩⟩
  | none =>
    rw [hreuse] at hrun
    simp only [Bool.false_eq_true, if_false] at hrun
    rw [Cell.enter_eq hreuse, Session.run_bind_of_ok Session.run_setCell] at hrun
    obtain ⟨_, grown, hgrown, hrun⟩ := Session.run_bind_eq_ok.1 hrun
    obtain ⟨u, version', hu, rfl⟩ := growSeed_once hempty heval hgrown
    obtain ⟨hltu, -⟩ := hempty u hu
    have hlt' : pos < (u.withCell id pos ⟨some outcome, true, false, version', .discovery⟩).width := by
      rwa [Session.width_withCell]
    rw [Session.run_bind_of_ok (Session.run_cell hlt'),
      Session.run_bind_of_ok (Session.run_version hlt'),
      Session.run_bind_of_ok Session.run_setCell, Session.cellAt_withCell_self hltu,
      Session.versionAt_withCell hltu] at hrun
    cases hrun
    exact ⟨rfl, .inr ⟨u, hu, .withCell_withCell hltu _ _⟩⟩

/-- **Matching through a cell that is not under evaluation gives the plain outcome**: a stored one is
plain, and any other is evaluated with the cell under evaluation. -/
theorem matchThrough_transparent {base : Session} {busy : ClauseId → Nat → Prop}
    (hpos : pos ≤ ctx.input.size) (hfree : ¬busy id pos) (hplain : Plain ctx id pos outcome)
    (heval : Ensures True (Session.Transparent ctx base (Entering busy id pos)) evaluation
      (· = outcome)) :
    Ensures True (Session.Transparent ctx base busy) (matchThrough ctx evaluation .discovery id pos)
      (· = outcome) := by
  intro s hs
  obtain ⟨result, version, hcell, hresult⟩ := hs.settled hfree hplain
  have hstored : version = s.versionAt pos → Yields result (· = outcome) :=
    fun _ stored hsome => (hresult stored hsome).unique hplain
  have hempty : ∀ u : Session, Session.Transparent ctx base (Entering busy id pos) u →
      pos < u.width ∧ ∃ version, u.cellAt id pos = { active := true, version } :=
    fun u hu => ⟨hu.lt_width hpos, hu.underway (.inr ⟨rfl, rfl⟩)⟩
  cases hrun : (matchThrough ctx evaluation .discovery id pos).run s with
  | error e => trivial
  | ok answer =>
    obtain ⟨given, t⟩ := answer
    obtain ⟨rfl, ⟨-, -, hagrees⟩ | ⟨u, hu, hagrees⟩⟩ :=
      matchThrough_once (hs.lt_width hpos) hcell hstored hempty
        (fun counted value u hvalue hcounted =>
          (heval.of_ok ((hs.entered hpos version).of_agrees hcounted) hvalue).symm) hrun
    · exact ⟨hs.of_agrees hagrees, rfl⟩
    · exact ⟨(hu.left hpos hfree hplain _).of_agrees hagrees, rfl⟩

end chart

/-! ## Any clause -/

/-- **Any clause.** The induction is on the fuel of plain evaluation, at whatever depth. Cells under
evaluation have no plain outcome with that fuel, so the clause is not one of them. With less fuel it
has either the same outcome, and less fuel does, or none, and it may join them. -/
theorem matchClause_follows (ctx : Context) {base : Session} :
    ∀ {fuel depth : Nat} {busy : ClauseId → Nat → Prop}
    (id : ClauseId) (pos : Nat) (bound : Option ClauseId),
    (∀ other place, busy other place → plainAtFuel ctx fuel other place = none) →
    Follows (Session.Transparent ctx base busy) (matchClause ctx depth .discovery id pos bound)
      (plainAtFuel ctx fuel id pos)
  | 0, _, _, _, _, _, _ => nofun
  | _ + 1, 0, _, _, _, _, _ => .throw
  | fuel + 1, depth + 1, busy, id, pos, bound, hbusy => by
    intro outcome houtcome
    have hplain : Plain ctx id pos outcome := ⟨fuel + 1, houtcome⟩
    have hbusy' : ∀ other place, busy other place → plainAtFuel ctx fuel other place = none :=
      fun other place h => plainAtFuel_eq_none (Nat.le_succ fuel) (hbusy other place h)
    cases hless : plainAtFuel ctx fuel id pos with
    | some earlier =>
      obtain rfl : earlier = outcome := Plain.unique ⟨fuel, hless⟩ hplain
      exact matchClause_follows ctx id pos bound hbusy' earlier hless
    | none =>
      have hfree : ¬busy id pos := by
        intro h
        rw [hbusy id pos h] at houtcome
        cases houtcome
      rw [plainAtFuel] at houtcome
      rw [matchClause_succ]
      split at houtcome
      · rename_i hbeyond
        rw [matchWith, if_pos hbeyond]
        cases houtcome
        exact .pure rfl
      · rename_i hwithin
        obtain ⟨clause, hclause, houtcome⟩ := Option.bind_eq_some_iff.1 houtcome
        have hevaluate : ∀ {busy' : ClauseId → Nat → Prop},
            (∀ other place, busy' other place → plainAtFuel ctx fuel other place = none) →
            Ensures True (Session.Transparent ctx base busy')
              (evaluate ctx (matchClause ctx depth) .discovery id clause pos bound) (· = outcome) :=
          fun hnone => evaluate_follows
            (fun other place bound' => matchClause_follows ctx other place bound' hnone)
            fuel id clause pos bound outcome houtcome
        rw [matchWith_of_clause (Nat.le_of_not_lt hwithin) hclause]
        split
        · exact hevaluate hbusy'
        · refine matchThrough_transparent (Nat.le_of_not_lt hwithin) hfree hplain (hevaluate ?_)
          rintro other place (h | ⟨rfl, rfl⟩)
          · exact hbusy' other place h
          · exact hless

/-- A plain outcome is what matching gives through a sound chart, if the clauses with a plain outcome that
are under evaluation wait for it. -/
theorem Plain.run {ctx : Context} (hg : ctx.grammar.WellFormed) {id : ClauseId} {pos : Nat}
    {outcome : Outcome} (h : Plain ctx id pos outcome) (hpos : pos ≤ ctx.input.size) {base s : Session}
    {busy : ClauseId → Nat → Prop} (hs : s.Sound ctx) (hclear : Session.Transparent ctx base busy s)
    (hawaits : ∀ other place, busy other place → Awaits ctx other place id pos) :
    outcome.Sound ctx id pos ∧
      ∃ t, (matchClause ctx ctx.depth .discovery id pos none).run s = .ok (outcome, t) := by
  obtain ⟨fuel, hless, hfuel⟩ := h.exists_least
  have hid : ctx.Has id := by
    rw [plainAtFuel, if_neg (Nat.not_lt.2 hpos)] at hfuel
    obtain ⟨clause, hclause, -⟩ := Option.bind_eq_some_iff.1 hfuel
    exact (Array.getElem?_eq_some_iff.1 hclause).1
  have hbound : ∀ other ∈ (none : Option ClauseId), ctx.Has other := by
    intro other hother
    cases hother
  have hanswers : Answers ctx id pos (matchClause ctx ctx.depth .discovery id pos none) s :=
    matchClause_answers hg hs hid hbound hpos (hg.chain_ends id hid) (ctx.depth_suffices s)
  obtain ⟨given, t, hrun, -, -, hsound⟩ := hanswers
  have hfollows : Ensures True (Session.Transparent ctx base busy)
      (matchClause ctx ctx.depth .discovery id pos none) (· = outcome) :=
    matchClause_follows ctx id pos none (fun other place h => hawaits other place h fuel hless)
      outcome hfuel
  obtain ⟨-, rfl⟩ := hfollows.of_ok hclear hrun
  exact ⟨hsound, t, hrun⟩

/-! ## Parses -/

/-- The phases of a parse without repairs. -/
theorem Job.matchPhases_plain {job : Job} (hconfig : job.config.recovery = false)
    {outcome : Outcome} (hplain : Plain job.context job.top 0 outcome) :
    Ensures True (Session.Transparent job.context (.start job.context.input.size) fun _ _ => False)
      job.matchPhases (·.1 = outcome) := by
  obtain ⟨fuel, hfuel⟩ := hplain
  have htop : Ensures True
      (Session.Transparent job.context (.start job.context.input.size) fun _ _ => False)
      (job.matchTop job.firstPhase) (· = outcome) :=
    matchClause_follows job.context job.top 0 none nofun outcome hfuel
  unfold matchPhases
  refine .bind (.change fun s hs => hs.of_chart_eq rfl) fun _ _ => ?_
  refine .bind htop fun given hgiven => ?_
  split
  · exact .pure hgiven
  · rw [hconfig]
    exact .pure hgiven

/-- **The chart changes no outcome.** Where the rules alone give an outcome for the body of the top
rule at the start of the input, a parse without repairs gives that outcome: there is a match if and
only if it is one, and then the root is its tree, in which no node was made by growing a
left-recursive match. -/
theorem parse_eq_plain {definitions : List Definition} {g : Grammar}
    (hb : Grammar.build definitions = .ok g) {rule input : String} {top : ClauseId}
    (hr : g.rule? rule = some top) {config : Config} (hconfig : config.recovery = false)
    {outcome : Outcome} (hplain : Plain ⟨g, input.toList.toArray⟩ top 0 outcome) :
    ∃ p, parse g rule input config = .ok p ∧ p.isMatch = outcome.isMatch ∧
      ∀ node, outcome = .matched node →
        p.root = node ∧ ∀ other ∈ node.nodes, other.isGrown = false := by
  have hg := build_wellFormed hb
  let job : Job := ⟨g, unmarked rule, top, input.toList.toArray, config⟩
  have hj : Job.make g rule input config = .ok job := Job.make_eq_ok hr
  have hphases := Job.matchPhases_ensures (show job.grammar.WellFormed from hg) (hg.rule?_lt hr)
  obtain ⟨⟨given, hasErrors⟩, session, hrun, -, hsound, -⟩ :=
    hphases.run job.start_sound
  have hplainly := Job.matchPhases_plain (show job.config.recovery = false from hconfig) hplain
  have hstart : Session.Transparent job.context (.start job.context.input.size) (fun _ _ => False)
      job.start := (Session.Transparent.start job.context).of_chart_eq rfl
  obtain ⟨-, rfl⟩ := hplainly.of_ok hstart hrun
  obtain ⟨events, hexecute⟩ := Job.execute_of_run hrun
  obtain ⟨fuel, hfuel⟩ := hplain
  refine ⟨_, parse_eq_ok hj hexecute, ?_, ?_⟩
  · cases given with
    | matched node =>
      obtain ⟨info, children, rfl, -, -⟩ := (hsound node rfl).isMatch
      rfl
    | _ => rfl
  · rintro node rfl
    exact ⟨rfl, plainAtFuel_ungrown _ fuel top 0 _ hfuel node rfl⟩

/-- Sums of two numbers, and numbers. -/
def pairDefinitions : List Definition :=
  [⟨"Pair", .choice [.seq [.reference "Num", .lit "+", .reference "Num"], .reference "Num"]⟩,
    ⟨"Num", .plus (.range '0' '9')⟩]

/-- The grammar of pairs. -/
def pairGrammar : Grammar where
  clauses := #[.reference "Num" 7, .literal ['+'], .reference "Num" 7, .seq [0, 1, 2],
    .reference "Num" 7, .choice [3, 4], .charClass [⟨'0', '9'⟩] false, .repeated 6 true]
  rules := [⟨"Pair", false, 5⟩, ⟨"Num", false, 7⟩]

/-- A number that both alternatives start with: the second one finds it in the chart. -/
theorem parse_eq_plain_pair :
    Grammar.build pairDefinitions = .ok pairGrammar ∧
      ∃ node, Plain ⟨pairGrammar, "12?".toList.toArray⟩ 5 0 (.matched node) ∧ node.len = 2 ∧
        ∃ p, parse pairGrammar "Pair" "12?" ⟨false, false⟩ = .ok p ∧ p.isMatch = true ∧
          p.root = node := by
  have hb : Grammar.build pairDefinitions = .ok pairGrammar := rfl
  have hr : pairGrammar.rule? "Pair" = some 5 := rfl
  have hconfig : (⟨false, false⟩ : Config).recovery = false := rfl
  let digit (pos : Nat) : Node := .terminal 6 pos 1
  let number : Node := .wrap 7 [digit 0, digit 1] false
  let pair : Node := .wrapOne 5 (.wrapOne 4 number false) false
  have hplain : Plain ⟨pairGrammar, "12?".toList.toArray⟩ 5 0 (.matched pair) := ⟨8, by decide⟩
  obtain ⟨p, hp, hmatch, hroot⟩ := parse_eq_plain hb hr hconfig hplain
  exact ⟨hb, pair, hplain, rfl, p, hp, hmatch, (hroot pair rfl).1⟩

end Packrat
