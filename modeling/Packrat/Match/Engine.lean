import Packrat.Match.Evaluate

/-!
# Matching through the chart

* `growSeed` — evaluates a clause, and again as long as it is left recursive and its match gets
  longer; `storeGrown` — ends such a round.
* `matchThrough` — answers from the chart if it can, answers a clause that is being evaluated with
  its match so far, and otherwise evaluates it.
* `matchWith` — matches a clause, given how it is evaluated. References go straight to their rule, all
  other clauses through the chart.
* `matchBy` — the engine, for any way to evaluate a clause through a matcher for those that it consults.
  What is to be done around calls, evaluations and growth is an argument of each layer.
* **`matchClause`** — matches any clause at any position: the engine that evaluates with `evaluate` and
  does nothing besides.
* `Context.depth` — how deep clauses can be nested in a run. A clause is under evaluation at a
  position at most once, and between two such evaluations stand at most as many references as the
  grammar has clauses.
-/

namespace Packrat

/-- What is done around a step of a run. -/
abbrev Around := (α : Type) → MatchM α → MatchM α

/-- Stores a longer match, and counts and reports the growth step. -/
def storeGrown (id : ClauseId) (pos : Nat) (cell : Cell) (outcome : Outcome) (version : Nat) :
    MatchM Unit := do
  Session.setCell id pos { cell with result := some outcome, version }
  Session.tally fun work => { work with expansions := work.expansions + 1 }
  Session.note (.seedGrown id pos outcome.len?)

/-- Stores ever longer results of `evaluation` in the cell of a clause. One round is enough unless
the clause turns out to be left recursive; then every round but the last stores a longer match,
makes the results of the position stale and starts another one. -/
def growSeed (evaluation : MatchM Outcome) (id : ClauseId) (pos fuel : Nat)
    (around : Around := fun _ step => step) : MatchM Unit :=
  match fuel with
  | 0 => throw .exhausted
  | fuel + 1 => do
    Session.tally fun work => { work with evaluations := work.evaluations + 1 }
    let outcome ← around Outcome evaluation
    let cell ← Session.cell id pos
    if cell.result.any (!outcome.longerThan ·) then return ()
    if !cell.leftRecursive then
      around Unit (Session.setCell id pos { cell with result := some outcome })
    else
      let version ← around Nat (Session.bump pos)
      around Unit (storeGrown id pos cell outcome version)
      growSeed evaluation id pos fuel around

/-- The answer of a clause that is being evaluated at the same position: its match so far, or that
there is none yet. The first such lookup shows that the clause is left recursive. -/
def reenter (id : ClauseId) (pos : Nat) (cell : Cell) : MatchM Outcome := do
  match cell.result with
  | some (.matched node) => return .matched node
  | some _ => return .pending
  | none =>
    Session.setCell id pos { cell with leftRecursive := true, result := some .mismatch }
    return .pending

/-- Matches a clause through its cell. -/
def matchThrough (ctx : Context) (evaluation : MatchM Outcome) (phase : Phase) (id : ClauseId)
    (pos : Nat) (around : Around := fun _ step => step) : MatchM Outcome := do
  let version ← Session.version pos
  let cell ← Session.cell id pos
  match cell.reusable? phase version pos ctx.input.size with
  | some outcome =>
    Session.tally fun work => { work with hits := work.hits + 1 }
    return outcome
  | none =>
    if cell.active then reenter id pos cell
    else
      Session.setCell id pos (cell.enter phase version)
      growSeed evaluation id pos (ctx.input.size + 3) around
      let cell := (← Session.cell id pos).leave phase (← Session.version pos)
      Session.setCell id pos cell
      return cell.result.getD .mismatch

/-- Matches a clause at a position, given how it is evaluated there. -/
def matchWith (ctx : Context) (evaluation : Clause → MatchM Outcome) (phase : Phase) (id : ClauseId)
    (pos : Nat) (around : Around := fun _ step => step) : MatchM Outcome := do
  if ctx.input.size < pos then return .mismatch
  let clause ← ctx.clause id
  if clause.isReference then evaluation clause
  else matchThrough ctx (evaluation clause) phase id pos around

/-- A way to evaluate a clause at a position, in a phase, under a bound. -/
abbrev Evaluator := Phase → ClauseId → Clause → Nat → Option ClauseId → MatchM Outcome

/-- **The engine**, for a way to evaluate a clause through a matcher for the clauses that it consults.
The number bounds the depth. -/
def matchBy (ctx : Context) (evaluator : Matcher → Evaluator) (around : Phase → Around) : Nat → Matcher
  | 0, _, _, _, _ => throw .exhausted
  | depth + 1, phase, id, pos, bound =>
    around phase Outcome <| matchWith ctx
      (fun clause => evaluator (matchBy ctx evaluator around depth) phase id clause pos bound)
      phase id pos (around phase)

/-- **Matches a clause at a position.** The number bounds the depth. -/
def matchClause (ctx : Context) : Nat → Matcher := matchBy ctx (evaluate ctx) fun _ _ step => step

/-- One level of matching. -/
theorem matchClause_succ (ctx : Context) (depth : Nat) (phase : Phase) (id : ClauseId) (pos : Nat)
    (bound : Option ClauseId) :
    matchClause ctx (depth + 1) phase id pos bound =
      matchWith ctx (fun clause => evaluate ctx (matchClause ctx depth) phase id clause pos bound)
        phase id pos := rfl

/-- A depth that is enough for every run. -/
def Context.depth (ctx : Context) : Nat :=
  (ctx.grammar.clauses.size * (ctx.input.size + 1) + 1) * (ctx.grammar.clauses.size + 1) + 1

end Packrat
