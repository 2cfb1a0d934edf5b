import Packrat.Proofs.Rounds

/-!
# Matching with a rule that nests in itself

The rules alone give no outcome to a directly left-recursive rule. Here it gets the one that growth
gives, also where the rests of its steps and its bases come back to the rule further on in the input.

* `LeftRule` — a rule with its steps and its bases.
* `Step.given`, `seeded` — what a step gives at the position of the rule, with a match of the rule so
  far, and so the outcomes of all clauses there.
* `growFrom` — the rounds of growth: as long as the body of the rule gives a longer match with the one
  so far, it is tried again with that.
* **`readAtFuel`**, **`Reads`** — the outcome of any clause, where growth stands for the rule. A step has
  none of its own, since what it gives depends on the match of the rule.
* `readAtFuel_mono_success`, `Reads.unique` — more fuel gives the same outcome, so there is at most one.
-/

namespace Packrat

/-- A left-recursive rule: its body, a choice between steps and bases. -/
structure LeftRule where
  /-- The body. -/
  top : ClauseId
  /-- The alternatives that start with the rule. -/
  steps : List Step
  /-- The alternatives after them. -/
  bases : List ClauseId

namespace LeftRule

/-- The clause of the body. -/
def body (rule : LeftRule) : Clause := .choice (rule.steps.map Step.id ++ rule.bases)

/-- The step with that index. -/
def step? (rule : LeftRule) (id : ClauseId) : Option Step := rule.steps.find? (·.id == id)

/-- Whether a clause is the body of the rule or one of its steps. -/
def Owns (rule : LeftRule) (id : ClauseId) : Prop := id = rule.top ∨ (rule.step? id).isSome = true

end LeftRule

/-! ## Growth -/

/-- The outcome that a match stands for, if there is one. -/
def Outcome.ofNode? : Option Node → Outcome
  | none => .mismatch
  | some node => .matched node

/-- What a step gives at the position of its rule, with the match of the rule so far. -/
def Step.given (matcher : PlainMatcher) (step : Step) (pos : Nat) : Option Node → Option Outcome
  | none => return .mismatch
  | some node => do return step.outcome node (← plainElements matcher step.tail (pos + node.len))

/-- The outcomes of all clauses while the rule is grown at a position. -/
def seeded (matcher : PlainMatcher) (rule : LeftRule) (pos : Nat) (seed : Option Node) :
    PlainMatcher := fun id place =>
  match rule.step? id with
  | some step => if place = pos then step.given matcher pos seed else none
  | none => matcher id place

/-- **The growth of a match of the rule** at a position: the match with which it ends. There is no
outcome after so many rounds. -/
def growFrom (ctx : Context) (matcher : PlainMatcher) (rule : LeftRule) (pos : Nat) :
    Nat → Option Node → Option (Option Node)
  | 0, _ => none
  | rounds + 1, seed => do
    let outcome ← plainClause ctx (seeded matcher rule pos seed) 0 rule.top rule.body pos
    if outcome.longerThan (.ofNode? seed) then growFrom ctx matcher rule pos rounds outcome.node?
    else return seed

/-- **The outcome of a clause at a position**, if clauses are nested no deeper than the fuel, and
growth takes no more rounds. -/
def readAtFuel (ctx : Context) (rule : LeftRule) : Nat → PlainMatcher
  | 0, _, _ => none
  | fuel + 1, id, pos => do
    if ctx.input.size < pos then return .mismatch
    if id = rule.top then
      let final ← growFrom ctx (readAtFuel ctx rule fuel) rule pos fuel none
      return .ofNode? (final.map Node.markGrown)
    if (rule.step? id).isSome then none
    plainClause ctx (readAtFuel ctx rule fuel) fuel id (← ctx.grammar.clause? id) pos

/-- Whether a clause has an outcome at a position, with growth for the rule. -/
def Reads (ctx : Context) (rule : LeftRule) (id : ClauseId) (pos : Nat) (outcome : Outcome) : Prop :=
  ∃ fuel, readAtFuel ctx rule fuel id pos = some outcome

/-! ## More fuel -/

section monotone

variable {ctx : Context} {rule : LeftRule} {matcher matcher' : PlainMatcher} {pos : Nat}
  (h : ∀ id pos, Within (matcher id pos) (matcher' id pos))
include h

/-- More outcomes for the rest of a step. -/
theorem Step.given_within (step : Step) (seed : Option Node) :
    Within (step.given matcher pos seed) (step.given matcher' pos seed) := by
  cases seed with
  | none => exact .refl _
  | some node => exact .bind (plainElements_within h step.tail _) fun _ => .refl _

/-- More outcomes while the rule is grown. -/
theorem seeded_within (seed : Option Node) (id : ClauseId) (place : Nat) :
    Within (seeded matcher rule pos seed id place) (seeded matcher' rule pos seed id place) := by
  unfold seeded
  split
  · split
    · exact Step.given_within h _ seed
    · exact .none
  · exact h id place

/-- More outcomes for growth, and more rounds. -/
theorem growFrom_within : ∀ {rounds rounds' : Nat} (seed : Option Node), rounds ≤ rounds' →
    Within (growFrom ctx matcher rule pos rounds seed) (growFrom ctx matcher' rule pos rounds' seed)
  | 0, _, _, _ => .none
  | rounds + 1, rounds', seed, hle => by
    obtain ⟨more, rfl⟩ : ∃ k, rounds' = k + 1 := ⟨rounds' - 1, by omega⟩
    rw [growFrom, growFrom]
    refine .bind (plainClause_within (seeded_within h seed) (Nat.le_refl 0) _ _ pos) fun outcome => ?_
    split
    · exact growFrom_within _ (Nat.le_of_succ_le_succ hle)
    · exact .refl _

end monotone

/-- More fuel gives the same outcome. -/
theorem readAtFuel_mono_success (ctx : Context) (rule : LeftRule) :
    ∀ {fuel fuel' : Nat}, fuel ≤ fuel' →
    ∀ id pos, Within (readAtFuel ctx rule fuel id pos) (readAtFuel ctx rule fuel' id pos)
  | 0, _, _ => fun _ _ => .none
  | fuel + 1, fuel', hle => by
    obtain ⟨more, rfl⟩ : ∃ k, fuel' = k + 1 := ⟨fuel' - 1, by omega⟩
    have hle' := Nat.le_of_succ_le_succ hle
    have hless := readAtFuel_mono_success ctx rule hle'
    intro id pos
    rw [readAtFuel, readAtFuel]
    split
    · exact .refl _
    · split
      · exact .bind (growFrom_within hless none hle') fun _ => .refl _
      · split
        · exact .none
        · exact .bind (.refl _) fun clause => plainClause_within hless hle' id clause pos

/-- What has no outcome has none with less fuel. -/
theorem readAtFuel_eq_none {ctx : Context} {rule : LeftRule} {fuel fuel' : Nat} (hle : fuel ≤ fuel')
    {id : ClauseId} {pos : Nat} (h : readAtFuel ctx rule fuel' id pos = none) :
    readAtFuel ctx rule fuel id pos = none := by
  cases hless : readAtFuel ctx rule fuel id pos with
  | none => rfl
  | some outcome =>
    rw [readAtFuel_mono_success ctx rule hle id pos outcome hless] at h
    cases h

/-- There is at most one outcome. -/
theorem Reads.unique {ctx : Context} {rule : LeftRule} {id : ClauseId} {pos : Nat}
    {outcome outcome' : Outcome} (h : Reads ctx rule id pos outcome)
    (h' : Reads ctx rule id pos outcome') : outcome = outcome' := by
  obtain ⟨fuel, hfuel⟩ := h
  obtain ⟨fuel', hfuel'⟩ := h'
  have hmax := readAtFuel_mono_success ctx rule (Nat.le_max_left fuel fuel') id pos outcome hfuel
  have hmax' := readAtFuel_mono_success ctx rule (Nat.le_max_right fuel fuel') id pos outcome' hfuel'
  exact Option.some.inj (hmax.symm.trans hmax')

end Packrat
