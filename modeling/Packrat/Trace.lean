import Packrat.Grammar.Basic
import Packrat.Json

/-!
# What a run reports about itself

* `Event` — the steps that are worth telling: the two phases, the growth of left-recursive
  matches, repairs, and the end of a run.
* `Event.level`, `Event.message`, `Event.fields` — how an event is shown.

Events name clauses by index; `Event.fields` shows them in the notation of the grammar that the run
was for.
-/

namespace Packrat

/-- A step of a run. -/
inductive Event where
  /-- Plain matching starts. -/
  | discovery (rule : String) (inputLen : Nat)
  /-- Plain matching fell short, and matching with repairs starts. -/
  | recovery (rule : String) (matched : Option Nat)
  /-- A left-recursive match was replaced by a longer one. -/
  | seedGrown (clause : ClauseId) (pos : Nat) (len : Option Nat)
  /-- A sequence goes on after passing over input or after missing elements. -/
  | sequenceRepaired (clause : ClauseId) (pos skipped missing : Nat)
  /-- A repetition goes on after passing over input, or ends if it is not resumed. -/
  | repetitionRepaired (clause : ClauseId) (pos skipped : Nat) (resumed : Bool)
  /-- The run is over. -/
  | finished (errors cells : Nat)
  /-- A specification text has syntax errors. -/
  | specRejected (errors : Nat)
  /-- A grammar was built. -/
  | grammarBuilt (rules clauses : Nat)
deriving DecidableEq, Repr

/-- How much detail an event belongs to. -/
inductive Level where
  | debug
  | trace
deriving DecidableEq, Repr

/-- The name of a level. -/
def Level.text : Level → String
  | .debug => "DEBUG"
  | .trace => "TRACE"

namespace Event

/-- The level of an event. -/
def level : Event → Level
  | .seedGrown _ _ _ | .sequenceRepaired _ _ _ _ | .repetitionRepaired _ _ _ _ => .trace
  | _ => .debug

/-- The message of an event. -/
def message : Event → String
  | .discovery _ _ => "discovery phase"
  | .recovery _ _ => "discovery incomplete, starting recovery phase"
  | .seedGrown _ _ _ => "grew left-recursive seed"
  | .sequenceRepaired _ _ _ _ => "sequence recovery"
  | .repetitionRepaired _ _ _ _ => "repetition recovery"
  | .finished _ _ => "parse finished"
  | .specRejected _ => "grammar specification rejected"
  | .grammarBuilt _ _ => "built grammar"

/-- A length that may be absent, as text. -/
def lengthText : Option Nat → String
  | some n => "Some(" ++ toString n ++ ")"
  | none => "None"

/-- The details of an event, with clauses in the notation of `g`. -/
def fields (g : Grammar) : Event → List (String × Json)
  | .discovery rule inputLen => [("rule", .str rule), ("input_len", .nat inputLen)]
  | .recovery rule matched => [("rule", .str rule), ("matched", .str (lengthText matched))]
  | .seedGrown clause pos len =>
    [("clause", .str (g.display clause)), ("pos", .nat pos), ("len", .str (lengthText len))]
  | .sequenceRepaired clause pos skipped missing =>
    [("clause", .str (g.display clause)), ("pos", .nat pos), ("input_skip", .nat skipped),
      ("grammar_skip", .nat missing)]
  | .repetitionRepaired clause pos skipped resumed =>
    [("clause", .str (g.display clause)), ("pos", .nat pos), ("skip", .nat skipped),
      ("resumed", .bool resumed)]
  | .finished errors cells => [("errors", .nat errors), ("memo_entries", .nat cells)]
  | .specRejected errors => [("errors", .nat errors)]
  | .grammarBuilt rules clauses => [("rules", .nat rules), ("clauses", .nat clauses)]

end Event
end Packrat
