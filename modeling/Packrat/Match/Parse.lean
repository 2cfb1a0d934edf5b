import Packrat.Match.Engine

/-!
# Parsing

* `Config` — whether a parse repairs its input and whether it counts its work.
* `ParseError` — why a parse cannot start, or is refused afterwards.
* `Job` — a parse that is ready to run: the top rule exists.
* `Parse` — the result. Its root starts at the start of the input; if it ends before the end, the
  rest is `Parse.unmatched`.
* `Job.execute` — both phases, with the events; `Job.run` — the same without faults.
* **`parse`** — from a grammar, a rule and an input to the result.

A text always has a result: if the top rule does not match at all, the root is one syntax error
over the whole input.
-/

namespace Packrat

/-! ## Configuration and errors -/

/-- The choices of a parse. -/
structure Config where
  /-- Whether an input that does not match as a whole is repaired. -/
  recovery : Bool := true
  /-- Whether the work is counted. -/
  stats : Bool := false
deriving DecidableEq, Repr

/-- The counters with which a parse starts. -/
def Config.counters (config : Config) : Option Work := if config.stats then some {} else none

/-- A configuration as JSON. -/
def Config.toJson (config : Config) : Json :=
  .obj [("enable_recovery", .bool config.recovery), ("collect_stats", .bool config.stats)]

/-- What is wrong with a parse as a whole. -/
inductive ParseError where
  /-- There is no rule of that name. -/
  | unknownRule (name : String)
  /-- The input has syntax errors, described in document order. -/
  | syntaxErrors (descriptions : List String)
deriving DecidableEq, Repr

namespace ParseError

/-- The message of an error. -/
def message : ParseError → String
  | .unknownRule name => "Rule \"" ++ name ++ "\" not found"
  | .syntaxErrors descriptions =>
    "Input has syntax errors: " ++ String.intercalate "; " descriptions

/-- The stable code of an error. -/
def code : ParseError → String
  | .unknownRule _ => "squirrel::parse::unknown_rule"
  | .syntaxErrors _ => "squirrel::parse::syntax_errors"

end ParseError

/-! ## Results -/

/-- The result of a parse. -/
structure Parse where
  /-- The grammar. -/
  grammar : Grammar
  /-- The name of the top rule, without a mark. -/
  topRule : String
  /-- The input. -/
  input : Array Char
  /-- The match of the top rule, or one error over the whole input. -/
  root : Node
  /-- The input after the root. -/
  unmatched : Option SyntaxError
  /-- Whether plain matching did not cover the input. -/
  hasErrors : Bool
  /-- The counters, if the work was counted. -/
  work : Option Work
deriving DecidableEq, Repr

namespace Parse

/-- Whether the root is a match. -/
def isMatch (p : Parse) : Bool := p.root.error?.isNone

/-- The syntax errors in document order, the rest of the input last. -/
def syntaxErrors (p : Parse) : List SyntaxError :=
  if p.hasErrors then p.root.syntaxErrors ++ p.unmatched.toList else []

/-- The number of syntax errors. -/
def errorCount (p : Parse) : Nat := p.root.errors + if p.unmatched.isSome then 1 else 0

/-- The descriptions of the syntax errors. -/
def descriptions (p : Parse) : List String := p.syntaxErrors.map (·.describe p.grammar)

/-- The result itself, unless it has syntax errors. -/
def strict (p : Parse) : Except ParseError Parse :=
  if p.hasErrors then throw (.syntaxErrors p.descriptions) else return p

/-- The result with the events of its run in order, from the session at the end. -/
def finish (p : Parse) (session : Session) : Parse × List Event :=
  (p, (.finished p.errorCount session.chart.count :: session.trace).reverse)

/-- The dump of the match tree and of the rest of the input. -/
def pretty (p : Parse) : String :=
  p.root.pretty p.grammar p.input
    ++ ((p.unmatched.map fun e => (Node.skipped e.pos e.len).pretty p.grammar p.input).getD "")

end Parse

/-! ## Running -/

/-- A parse that is ready to run. -/
structure Job where
  /-- The grammar. -/
  grammar : Grammar
  /-- The name of the top rule, without a mark. -/
  topRule : String
  /-- The body of the top rule. -/
  top : ClauseId
  /-- The input. -/
  input : Array Char
  /-- The choices. -/
  config : Config

namespace Job

/-- Prepares a parse. -/
def make (g : Grammar) (rule input : String) (config : Config) : Except ParseError Job :=
  match g.rule? rule with
  | some top => return ⟨g, unmarked rule, top, input.toList.toArray, config⟩
  | none => throw (.unknownRule rule)

/-- The phase in which a parse starts. -/
def firstPhase (_ : Job) : Phase := .discovery

/-- What the parse is about. -/
def context (job : Job) : Context := ⟨job.grammar, job.input⟩

/-- Matches the top rule at the start of the input. -/
def matchTop (job : Job) (phase : Phase) : MatchM Outcome :=
  matchClause job.context job.context.depth phase job.top 0 none

/-- Whether a match of the top rule covers the input. -/
def covers (job : Job) (outcome : Outcome) : Bool :=
  outcome.node?.any fun node => node.pos == 0 && node.len == job.input.size

/-- Runs the phases: the second only if the first does not cover the input and repairs are asked
for. Also says whether the first phase fell short. The top rule may be matched in another way. -/
def matchPhases (job : Job) (matchTop : Phase → MatchM Outcome := job.matchTop) :
    MatchM (Outcome × Bool) := do
  Session.note (.discovery job.topRule job.input.size)
  let outcome ← matchTop job.firstPhase
  if job.covers outcome then return (outcome, false)
  if !job.config.recovery then return (outcome, true)
  Session.note (.recovery job.topRule outcome.len?)
  return (← matchTop .recovery, true)

/-- The rest of the input after a match that falls short. -/
def rest? (job : Job) (root : Node) (hasErrors : Bool) : Option SyntaxError :=
  if root.stop < job.input.size && hasErrors then
    some ⟨root.stop, job.input.size - root.stop, none⟩
  else none

/-- The result that an outcome of the phases stands for. -/
def assemble (job : Job) (outcome : Outcome) (hasErrors : Bool) (work : Option Work) : Parse :=
  let (root, unmatched) :=
    match outcome with
    | .matched node => (node, job.rest? node hasErrors)
    | _ => (.skipped 0 job.input.size, none)
  { grammar := job.grammar, topRule := job.topRule, input := job.input, root, unmatched, hasErrors,
    work }

/-- The session in which a parse starts. -/
def start (job : Job) : Session := .start job.input.size job.config.counters

/-- The result of a parse and its events in order, or the fault that broke it off. -/
def execute (job : Job) : Except Fault (Parse × List Event) := do
  let ((outcome, hasErrors), session) ← job.matchPhases.run job.start
  return (job.assemble outcome hasErrors session.work).finish session

/-- The result of a parse and its events. A run that breaks off counts as one without a match. -/
def run (job : Job) : Parse × List Event :=
  match job.execute with
  | .ok result => result
  | .error _ => (job.assemble .mismatch true job.config.counters, [])

end Job

/-- **Parses an input** from a rule of a grammar. -/
def parse (g : Grammar) (rule input : String) (config : Config := {}) : Except ParseError Parse :=
  return (← Job.make g rule input config).run.1

end Packrat
