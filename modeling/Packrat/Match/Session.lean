import Packrat.Match.Chart
import Packrat.Trace

/-!
# The state of a run

* `Work` — the counters of a run.
* `Session` — the chart, the counters and the events so far, and a phase for engines that keep it there.
* `Fault` — the ways in which a run could break off: its depth bound is used up, or a clause or a
  position does not exist. A run over a built grammar never does either; the cases are there
  because the computation does not depend on a proof of that.
* `MatchM` — computations that read and change a session.
* `Context` — what a run is about and never changes: the grammar and the input.
* `Matcher` — a way to match a clause at a position, in a phase, under a bound.

Events are kept in every run, counters only in one that is asked for them.
-/

namespace Packrat

/-- The counters of a run. -/
structure Work where
  /-- Evaluations of clauses that the chart did not answer. -/
  evaluations : Nat := 0
  /-- Lookups that the chart answered. -/
  hits : Nat := 0
  /-- Growth steps of left-recursive matches. -/
  expansions : Nat := 0
  /-- Repairs of sequences and repetitions. -/
  repairs : Nat := 0
deriving DecidableEq, Repr

/-- The state of a run. -/
structure Session where
  /-- What is known so far. -/
  chart : Chart
  /-- What it took, if that is counted. -/
  work : Option Work := none
  /-- What happened, newest first. -/
  trace : List Event := []
  /-- The phase, for engines that keep it here. A `Matcher` is told its phase. -/
  phase : Phase := .discovery
deriving DecidableEq, Repr

/-- Why a run breaks off. -/
inductive Fault where
  /-- A bound on depth or on the rounds of a loop is used up. -/
  | exhausted
  /-- A clause or a position does not exist. -/
  | outOfRange
deriving DecidableEq, Repr

/-- Computations on a session. -/
abbrev MatchM := StateT Session (Except Fault)

/-- What a run is about. -/
structure Context where
  /-- The grammar. -/
  grammar : Grammar
  /-- The input. -/
  input : Array Char

/-- A way to match a clause at a position. During recovery a repetition stops where its bound
matches. -/
abbrev Matcher := Phase → ClauseId → Nat → Option ClauseId → MatchM Outcome

namespace Session

/-- The session of an input before anything was tried. -/
def start (inputLen : Nat) (work : Option Work := none) : Session :=
  { chart := .start inputLen, work }

/-- Reports an event. -/
def note (event : Event) : MatchM Unit :=
  modify fun session => { session with trace := event :: session.trace }

/-- Changes the counters, if there are any. -/
def tally (f : Work → Work) : MatchM Unit :=
  modify fun session => { session with work := session.work.map f }

/-- The column of a position. -/
def column (pos : Nat) : MatchM Column := do
  match (← get).chart.column? pos with
  | some column => return column
  | none => throw .outOfRange

/-- The version of a position. -/
def version (pos : Nat) : MatchM Nat := return (← column pos).version

/-- The cell of a clause at a position. -/
def cell (id : ClauseId) (pos : Nat) : MatchM Cell := return (← column pos).cell id

/-- Stores the cell of a clause at a position. -/
def setCell (id : ClauseId) (pos : Nat) (cell : Cell) : MatchM Unit :=
  modify fun session => { session with chart := session.chart.modify pos (·.setCell id cell) }

/-- Makes the results of a position stale, and gives its new version. -/
def bump (pos : Nat) : MatchM Nat := do
  let old ← version pos
  modify fun session => { session with chart := session.chart.modify pos Column.bump }
  return old + 1

end Session

/-- The clause with that index. -/
def Context.clause (ctx : Context) (id : ClauseId) : MatchM Clause :=
  match ctx.grammar.clause? id with
  | some clause => return clause
  | none => throw .outOfRange

end Packrat
