import Packrat.Match.Repair

/-!
# Evaluating clauses

One function for each kind of clause. None of them looks at the chart for its own clause; they
match other clauses through the matcher that they are given, which does.

* `evaluateSequence`, `evaluateChoice`, `evaluateRepetition`, `evaluateOptional` — the kinds with
  rules of their own.
* `preferred` — which of two repaired alternatives of a choice is more plausible.
* **`evaluate`** — any clause.

During recovery every element of a sequence is bounded by the one after it, so that a repetition
does not swallow the delimiter that follows.
-/

namespace Packrat

/-- Matches one character that satisfies a condition. -/
def evaluateChar (ctx : Context) (id : ClauseId) (pos : Nat) (accepts : Char → Bool) : Outcome :=
  if ctx.input[pos]?.any accepts then .matched (.terminal id pos 1) else .mismatch

/-! ## Sequences -/

/-- The bound of an element of a sequence: during recovery, the element that follows it. -/
def elementBound (phase : Phase) (rest : List ClauseId) (bound : Option ClauseId) :
    Option ClauseId :=
  match phase, rest with
  | .recovery, next :: _ => some next
  | _, _ => bound

/-- Matches the elements of the sequence `id` one after the other, and gives their nodes. -/
def evaluateElements (ctx : Context) (matcher : Matcher) (phase : Phase) (id : ClauseId)
    (bound : Option ClauseId) : List ClauseId → Nat → MatchM (Option (List Node))
  | [], _ => return some []
  | element :: rest, pos => do
    match ← matcher phase element pos (elementBound phase rest bound) with
    | .matched node =>
      let others ← evaluateElements ctx matcher phase id bound rest (pos + node.len)
      return others.map (node :: ·)
    | failed =>
      if phase = .discovery || failed.isGrown then return none
      match ← repairSequence ctx (matcher .discovery · · none) element rest pos with
      | none => return none
      | some .deleteRest =>
        recordRepair pos
        Session.note (.sequenceRepaired id pos 0 (rest.length + 1))
        return some ((element :: rest).map (Node.deleted pos))
      | some (.skip skip node) =>
        recordRepair pos
        Session.note (.sequenceRepaired id pos skip 0)
        let others ←
          evaluateElements ctx matcher phase id bound rest (pos + skip + node.len)
        return others.map fun nodes => .skipped pos skip :: node :: nodes

/-- Matches a sequence. -/
def evaluateSequence (ctx : Context) (matcher : Matcher) (phase : Phase) (id : ClauseId)
    (elements : List ClauseId) (pos : Nat) (bound : Option ClauseId) : MatchM Outcome := do
  match ← evaluateElements ctx matcher phase id bound elements pos with
  | none => return .mismatch
  | some [] => return .matched (.emptyAt id pos true)
  | some nodes => return .matched (.wrap id nodes (nodes.all Node.isComplete))

/-! ## Choices -/

/-- Whether at least every second character of a match stands for an error. -/
def errorHeavy (node : Node) : Bool := 0 < node.len && node.len ≤ 2 * node.errors

/-- Whether a candidate takes the place of the best alternative so far: it is not heavy with errors
and the best is, or it is longer, or it is as long with fewer errors. -/
def preferred (candidate best : Node) : Bool :=
  (errorHeavy best && !errorHeavy candidate)
    || best.len < candidate.len
    || (candidate.len == best.len && candidate.errors < best.errors)

/-- The most plausible of a repaired first alternative and those after it. The search ends at an
alternative without errors that is no shorter than the best. -/
def bestAlternative (matcher : Matcher) (phase : Phase) (pos : Nat) (bound : Option ClauseId) :
    List ClauseId → Node → MatchM Node
  | [], best => return best
  | alternative :: rest, best => do
    match ← matcher phase alternative pos bound with
    | .matched candidate =>
      let best := if preferred candidate best then candidate else best
      if candidate.errors = 0 && best.len ≤ candidate.len then return best
      else bestAlternative matcher phase pos bound rest best
    | _ => bestAlternative matcher phase pos bound rest best

/-- The node of the first alternative that matches. -/
def firstAlternative (matcher : Matcher) (phase : Phase) (pos : Nat) (bound : Option ClauseId) :
    List ClauseId → MatchM (Option Node)
  | [] => return none
  | alternative :: rest => do
    match ← matcher phase alternative pos bound with
    | .matched node => return some node
    | _ => firstAlternative matcher phase pos bound rest

/-- The node that a choice takes: that of the first alternative that matches, except that during
recovery the very first alternative has to compete with the others if it holds errors. -/
def chooseAlternative (matcher : Matcher) (phase : Phase) (pos : Nat) (bound : Option ClauseId) :
    List ClauseId → MatchM (Option Node)
  | [] => return none
  | alternative :: rest => do
    match ← matcher phase alternative pos bound with
    | .matched node =>
      if phase = .recovery && 0 < node.errors then
        return some (← bestAlternative matcher phase pos bound rest node)
      else return some node
    | _ => firstAlternative matcher phase pos bound rest

/-- Matches an ordered choice. -/
def evaluateChoice (matcher : Matcher) (phase : Phase) (id : ClauseId)
    (alternatives : List ClauseId) (pos : Nat) (bound : Option ClauseId) : MatchM Outcome := do
  match ← chooseAlternative matcher phase pos bound alternatives with
  | some node => return .matched (.wrapOne id node node.isComplete)
  | none => return .mismatch

/-! ## Repetitions -/

/-- Whether a repetition stops at a position because its bound matches there. -/
def boundReached (matcher : Matcher) (phase : Phase) (bound : Option ClauseId) (pos : Nat) :
    MatchM Bool :=
  match phase, bound with
  | .recovery, some id => probesNonempty (matcher .discovery · · none) id pos
  | _, _ => return false

/-- The nodes of the iterations from `pos` on, and whether plain matching stopped before the end of
the input because the item did not match. The fuel bounds the number of rounds, each of which
consumes input. -/
def iterate (ctx : Context) (matcher : Matcher) (phase : Phase) (id item : ClauseId)
    (bound : Option ClauseId) : Nat → Nat → Bool → MatchM (List Node × Bool)
  | 0, _, _ => throw .exhausted
  | fuel + 1, pos, repaired => do
    if ctx.input.size < pos then return ([], false)
    if ← boundReached matcher phase bound pos then return ([], false)
    match ← matcher phase item pos none with
    | .matched node =>
      if node.len = 0 then return ([], false)
      let (nodes, short) ← iterate ctx matcher phase id item bound fuel (pos + node.len) repaired
      return (node :: nodes, short)
    | _ =>
      if phase = .discovery then return ([], pos < ctx.input.size)
      match ← repairRepetition ctx (matcher .discovery · · none) item pos repaired with
      | none => return ([], false)
      | some ⟨skip, resumed⟩ =>
        recordRepair pos
        Session.note (.repetitionRepaired id pos skip resumed.isSome)
        match resumed with
        | none => return ([.skipped pos skip], false)
        | some node =>
          let (nodes, short) ←
            iterate ctx matcher phase id item bound fuel (pos + skip + node.len) true
          return (.skipped pos skip :: node :: nodes, short)

/-- Matches a repetition. -/
def evaluateRepetition (ctx : Context) (matcher : Matcher) (phase : Phase) (id item : ClauseId)
    (atLeastOne : Bool) (pos : Nat) (bound : Option ClauseId) : MatchM Outcome := do
  let (nodes, short) ←
    iterate ctx matcher phase id item bound (ctx.input.size + 2) pos false
  match nodes with
  | [] => return if atLeastOne then .mismatch else .matched (.emptyAt id pos !short)
  | nodes => return .matched (.wrap id nodes (!short && nodes.all Node.isComplete))

/-! ## Options and references -/

/-- Matches an optional clause. Without a match of its item it matches nothing, which is complete
only during recovery or at the end of the input. -/
def evaluateOptional (ctx : Context) (matcher : Matcher) (phase : Phase) (id item : ClauseId)
    (pos : Nat) (bound : Option ClauseId) : MatchM Outcome := do
  match ← matcher phase item pos bound with
  | .matched node => return .matched (.wrapOne id node node.isComplete)
  | _ => return .matched (.emptyAt id pos !(phase = .discovery && pos < ctx.input.size))

/-- Matches a reference: the body of its rule, wrapped. A body that is pending stays so. -/
def evaluateReference (matcher : Matcher) (phase : Phase) (id target : ClauseId) (pos : Nat)
    (bound : Option ClauseId) : MatchM Outcome := do
  match ← matcher phase target pos bound with
  | .matched node => return .matched (.wrapOne id node node.isComplete)
  | failed => return failed

/-! ## All kinds -/

/-- **Matches a clause at a position**, through the matcher for the clauses that it consults. -/
def evaluate (ctx : Context) (matcher : Matcher) (phase : Phase) (id : ClauseId) (clause : Clause)
    (pos : Nat) (bound : Option ClauseId) : MatchM Outcome :=
  match clause with
  | .literal text =>
    return if startsAt ctx.input text pos then .matched (.terminal id pos text.length)
      else .mismatch
  | .char c => return evaluateChar ctx id pos (· == c)
  | .charClass ranges inverted => return evaluateChar ctx id pos (classAccepts ranges inverted)
  | .anyChar => return evaluateChar ctx id pos fun _ => true
  | .empty => return .matched (.terminal id pos 0)
  | .seq elements => evaluateSequence ctx matcher phase id elements pos bound
  | .choice alternatives => evaluateChoice matcher phase id alternatives pos bound
  | .repeated item atLeastOne => evaluateRepetition ctx matcher phase id item atLeastOne pos bound
  | .optional item => evaluateOptional ctx matcher phase id item pos bound
  | .reference _ target => evaluateReference matcher phase id target pos bound
  | .ahead item => do
    if (← matcher phase item pos bound).isMatch then return .matched (.terminal id pos 0)
    else return .mismatch
  | .notAhead item => do
    if (← matcher phase item pos bound).isMatch then return .mismatch
    else return .matched (.terminal id pos 0)

end Packrat
