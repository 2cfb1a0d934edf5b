import Packrat.Proofs.Courses
import Packrat.Proofs.Storing
import Packrat.Proofs.Transparency

/-!
# What the first phase finds

The outcome of a clause does not depend on when in the first phase it is matched, where it has a plain
one: neither on what was matched before, nor on what is under evaluation.

* `Session.Quiet` — nothing that has a plain outcome is under evaluation, and what is stored where there is
  one is plain. `matchClause_quiet` — matching any clause leaves a session so, also one that comes back to
  itself and grows.
* `Session.Discovered` — the sessions of the first phase. `Session.Clear` — what they have in common.
* `Context.Finds` — the outcome of a clause in all of them. **`Plain.finds`** — it is the plain one.
-/

namespace Packrat

variable {ctx : Context} {id : ClauseId} {pos : Nat}

/-! ## Nothing plain under evaluation -/

/-- Whether no clause with a plain outcome is under evaluation in a session, and what is stored for such
clauses is that outcome. -/
abbrev Session.Quiet (ctx : Context) (s : Session) : Prop :=
  Session.Transparent ctx s (fun _ _ => False) s

/-- Events and counters do not matter. -/
theorem Session.Quiet.of_chart_eq {s t : Session} (h : s.Quiet ctx) (heq : t.chart = s.chart) :
    t.Quiet ctx :=
  (Session.Transparent.of_chart_eq h heq).rebase

/-- What an evaluation does beside matching leaves a session quiet. -/
theorem stable_quiet (ctx : Context) : Stable ctx (Session.Quiet ctx) where
  width h := h.width
  noted _ h := Session.Quiet.of_chart_eq h rfl
  tallied _ h := Session.Quiet.of_chart_eq h rfl
  bumped hpos h := h.bumped hpos

/-- Whatever is stored for a clause without a plain outcome leaves a session quiet. -/
theorem holds_quiet (hpos : pos ≤ ctx.input.size) (hnone : ∀ outcome, ¬Plain ctx id pos outcome) :
    Holds ctx (Session.Quiet ctx) (fun _ => True) id pos where
  stable := stable_quiet ctx
  stored _ _ := trivial
  withCell h _ := h.withCell hpos hnone _
  of_not_isMatch _ := trivial
  markGrown _ := trivial

/-- Whether a computation leaves a session quiet. -/
def KeepsQuiet (ctx : Context) {α : Type} (m : Unit → MatchM α) : Prop :=
  Ensures True (Session.Quiet ctx) (m ()) fun _ => True

/-- Leaving a session quiet passes from matching to evaluating. -/
theorem keepsQuiet_composable (ctx : Context) : Composable (KeepsQuiet ctx) where
  pure _ := Ensures.pure trivial
  throw _ := Ensures.throw trivial
  bind hm hf := Ensures.bind hm fun a _ => hf a

/-- **Matching in the first phase leaves a session quiet.** A clause with a plain outcome goes by the
rules. Any other changes nothing but its own cell and the version of its position, beside what the
clauses do that it consults; the induction is on the depth. -/
theorem matchClause_quiet (ctx : Context) : ∀ (depth : Nat) (id : ClauseId) (pos : Nat)
    (bound : Option ClauseId), KeepsQuiet ctx fun _ => matchClause ctx depth .discovery id pos bound
  | 0, _, _, _ => (keepsQuiet_composable ctx).throw _
  | depth + 1, id, pos, bound => by
    by_cases hplain : ∃ outcome, Plain ctx id pos outcome
    · obtain ⟨outcome, fuel, hfuel⟩ := hplain
      intro s hs
      have hfollows : Ensures True (Session.Transparent ctx s fun _ _ => False)
          (matchClause ctx (depth + 1) .discovery id pos bound) (· = outcome) :=
        matchClause_follows ctx id pos bound (fun _ _ h => h.elim) outcome hfuel
      cases hrun : (matchClause ctx (depth + 1) .discovery id pos bound).run s with
      | error e => trivial
      | ok result => exact ⟨(hfollows.of_ok hs hrun).1.rebase, trivial⟩
    · have hnone : ∀ outcome, ¬Plain ctx id pos outcome := fun outcome h => hplain ⟨outcome, h⟩
      have hevaluate : ∀ clause, KeepsQuiet ctx fun _ =>
          evaluate ctx (matchClause ctx depth) .discovery id clause pos bound := fun clause =>
        evaluate_composable (keepsQuiet_composable ctx) (matchClause_quiet ctx depth) id clause pos
          bound
      unfold KeepsQuiet
      rw [matchClause_succ]
      refine matchWith_ensures (fun _ => trivial) fun {clause} _ hpos => ?_
      split
      · exact hevaluate clause
      · exact matchThrough_holds (holds_quiet hpos hnone) hpos (hevaluate clause)

/-! ## The sessions of the first phase -/

/-- **The sessions of the first phase**, between its steps and in the middle of one, with the clauses under
evaluation that have a plain outcome. A clause that has none comes back to itself; what is stored for it
while it is being evaluated, and after, is only asked to be sound. -/
inductive Session.Discovered (ctx : Context) : (ClauseId → Nat → Prop) → Session → Prop
  /-- Nothing has been tried. -/
  | start {s : Session} : s.chart = .start ctx.input.size → Discovered ctx (fun _ _ => False) s
  /-- A clause has been matched, for which all under evaluation were waiting. -/
  | matched {busy : ClauseId → Nat → Prop} {s t : Session} {id : ClauseId} {pos : Nat}
      {outcome : Outcome} : Discovered ctx busy s → ctx.Has id → pos ≤ ctx.input.size →
      (∀ other place, busy other place → Awaits ctx other place id pos) →
      (matchClause ctx ctx.depth .discovery id pos none).run s = .ok (outcome, t) →
      Discovered ctx busy t
  /-- The evaluation of a clause with a plain outcome has started. -/
  | entered {busy : ClauseId → Nat → Prop} {s : Session} {id : ClauseId} {pos version : Nat}
      {outcome : Outcome} : Discovered ctx busy s → pos ≤ ctx.input.size → Plain ctx id pos outcome →
      Discovered ctx (Entering busy id pos) (s.withCell id pos { active := true, version })
  /-- A clause without a plain outcome is being evaluated. -/
  | growing {s : Session} {id : ClauseId} {pos : Nat} {cell : Cell} :
      Discovered ctx (fun _ _ => False) s → pos ≤ ctx.input.size →
      (∀ outcome, ¬Plain ctx id pos outcome) →
      (∀ outcome, cell.result = some outcome → outcome.Sound ctx id pos) →
      Discovered ctx (fun _ _ => False) (s.withCell id pos cell)
  /-- Its match has grown. -/
  | grown {s : Session} {pos : Nat} : Discovered ctx (fun _ _ => False) s → pos ≤ ctx.input.size →
      Discovered ctx (fun _ _ => False) (s.bumped pos)
  /-- Something has been counted or reported. -/
  | aside {busy : ClauseId → Nat → Prop} {s t : Session} : Discovered ctx busy s →
      t.chart = s.chart → Discovered ctx busy t

/-- **The outcome of a clause at a position in the first phase**, in whichever session it is matched. -/
def Context.Finds (ctx : Context) (id : ClauseId) (pos : Nat) (outcome : Outcome) : Prop :=
  ∀ busy s, s.Discovered ctx busy → (∀ other place, busy other place → Awaits ctx other place id pos) →
    ∃ t, (matchClause ctx ctx.depth .discovery id pos none).run s = .ok (outcome, t)

/-- There is one such outcome. -/
theorem Context.Finds.unique {outcome outcome' : Outcome} (h : ctx.Finds id pos outcome)
    (h' : ctx.Finds id pos outcome') : outcome = outcome' := by
  have hstart : (Session.start ctx.input.size).Discovered ctx fun _ _ => False := .start rfl
  obtain ⟨t, hrun⟩ := h _ _ hstart nofun
  obtain ⟨t', hrun'⟩ := h' _ _ hstart nofun
  cases hrun.symm.trans hrun'
  rfl

/-- Only the chart decides whether a session is sound. -/
theorem Session.Sound.of_chart_eq {s t : Session} (h : s.Sound ctx) (heq : t.chart = s.chart) :
    t.Sound ctx := by
  have hagrees := Session.Agrees.of_chart_eq heq
  refine ⟨hagrees.width.trans h.width, fun hresult => ?_⟩
  rw [hagrees.cell] at hresult
  exact h.stored hresult

/-- What the sessions of the first phase have in common: they are sound, only plain outcomes go through
the cells that have one, and those under evaluation are among these. -/
structure Session.Clear (ctx : Context) (busy : ClauseId → Nat → Prop) (s : Session) : Prop where
  /-- What is stored is sound. -/
  sound : s.Sound ctx
  /-- Where there is a plain outcome, nothing else is stored. -/
  transparent : Session.Transparent ctx s busy s
  /-- What is under evaluation has a plain outcome. -/
  plain : ∀ {id pos}, busy id pos → ∃ outcome, Plain ctx id pos outcome

section wellFormed

variable (hg : ctx.grammar.WellFormed)
include hg

/-- Matching a clause for which all under evaluation are waiting keeps a session clear. -/
theorem Session.Clear.matched {busy : ClauseId → Nat → Prop} {s t : Session} {outcome : Outcome}
    (h : s.Clear ctx busy) (hid : ctx.Has id) (hpos : pos ≤ ctx.input.size)
    (hawaits : ∀ other place, busy other place → Awaits ctx other place id pos)
    (hrun : (matchClause ctx ctx.depth .discovery id pos none).run s = .ok (outcome, t)) :
    t.Clear ctx busy := by
  have hanswers : Answers ctx id pos (matchClause ctx ctx.depth .discovery id pos none) s :=
    matchClause_answers hg h.sound hid nofun hpos (hg.chain_ends id hid) (ctx.depth_suffices s)
  obtain ⟨_, _, hrun', hsound, -, -⟩ := hanswers
  cases hrun.symm.trans hrun'
  refine ⟨hsound, ?_, h.plain⟩
  by_cases hplain : ∃ expected, Plain ctx id pos expected
  · obtain ⟨expected, hplain⟩ := hplain
    obtain ⟨fuel, hless, hfuel⟩ := hplain.exists_least
    have hfollows : Ensures True (Session.Transparent ctx s busy)
        (matchClause ctx ctx.depth .discovery id pos none) (· = expected) :=
      matchClause_follows ctx id pos none (fun other place h => hawaits other place h fuel hless)
        expected hfuel
    exact (hfollows.of_ok h.transparent hrun).1.rebase
  · -- What a clause with a plain outcome waits for has one, so nothing of the kind is under evaluation.
    obtain rfl : busy = fun _ _ => False := by
      funext other place
      refine eq_false fun hbusy => hplain ?_
      obtain ⟨expected, hother⟩ := h.plain hbusy
      exact (hawaits other place hbusy).exists_plain hother
    exact ((matchClause_quiet ctx _ _ _ _).of_ok h.transparent hrun).1

/-- The sessions of the first phase are clear. -/
theorem Session.Discovered.clear {busy : ClauseId → Nat → Prop} {s : Session}
    (h : s.Discovered ctx busy) : s.Clear ctx busy := by
  induction h with
  | start hchart =>
    have hsound : (Session.start ctx.input.size).Sound ctx := Session.Sound.start ctx
    have hquiet : (Session.start ctx.input.size).Quiet ctx := Session.Transparent.start ctx
    exact ⟨hsound.of_chart_eq hchart, hquiet.of_chart_eq hchart, False.elim⟩
  | matched _ hid hpos hawaits hrun ih => exact ih.matched hg hid hpos hawaits hrun
  | entered _ hpos hplain ih =>
    refine ⟨ih.sound.withCell hpos nofun, (ih.transparent.entered hpos _).rebase, ?_⟩
    rintro other place (hbusy | ⟨rfl, rfl⟩)
    · exact ih.plain hbusy
    · exact ⟨_, hplain⟩
  | growing _ hpos hnone hcell ih =>
    exact ⟨ih.sound.withCell hpos hcell, ih.transparent.withCell hpos hnone _, False.elim⟩
  | grown _ hpos ih => exact ⟨ih.sound.bumped hpos, ih.transparent.bumped hpos, False.elim⟩
  | aside _ hchart ih =>
    exact ⟨ih.sound.of_chart_eq hchart, (ih.transparent.of_chart_eq hchart).rebase, ih.plain⟩

/-- **In the first phase a clause gives its plain outcome**, if it has one. -/
theorem Plain.finds (hpos : pos ≤ ctx.input.size) {outcome : Outcome} (h : Plain ctx id pos outcome) :
    ctx.Finds id pos outcome := by
  intro busy s hs hawaits
  have hclear := hs.clear hg
  exact (h.run hg hpos hclear.sound hclear.transparent hawaits).2

end wellFormed

end Packrat
