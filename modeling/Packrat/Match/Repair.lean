import Packrat.Match.Session

/-!
# Repairs

During recovery a sequence or a repetition whose next element does not match looks for a way to go
on. All lookahead is done by *probes*: plain matching, without repairs and without a bound.

* `SequenceRepair`, `repairSequence` — at the end of the input all remaining elements are taken as
  missing; before it, the least stretch of input is passed over after which the element matches,
  subject to the two restrictions on literals below.
* `leapsNext` — a one-character literal does not pass over more than one character when the next
  literal stands in what it would pass over.
* `leapsSelf` — a literal does not pass over more characters than it has, if it has more than one
  or stands itself in what it would pass over.
* `RepetitionRepair`, `repairRepetition` — the least stretch after which the item matches; once a
  repetition has been repaired, a rest without any match is passed over as a whole.
-/

namespace Packrat

/-- Whether the clause matches a stretch of input that is not empty. -/
def probesNonempty (probe : ClauseId → Nat → MatchM Outcome) (id : ClauseId) (pos : Nat) :
    MatchM Bool := return (← probe id pos).len?.any (0 < ·)

/-! ## Sequences -/

/-- How a sequence goes on. -/
inductive SequenceRepair where
  /-- The element and all after it are missing. -/
  | deleteRest
  /-- So much input is passed over, and then the element matches with this node. -/
  | skip (len : Nat) (node : Node)
deriving DecidableEq, Repr

/-- Whether a one-character literal would pass over the literal that follows it. -/
def leapsNext (input : Array Char) (failed : Clause) (next : Option Clause) (pos skip : Nat) :
    Bool :=
  match failed, next with
  | .literal [_], some (.literal text) => 1 < skip && occursWithin input text pos (pos + skip)
  | _, _ => false

/-- Whether a literal would pass over too much to be taken up again. -/
def leapsSelf (input : Array Char) (failed : Clause) (pos skip : Nat) : Bool :=
  match failed with
  | .literal text =>
    text.length < skip && (1 < text.length || occursWithin input text pos (pos + skip))
  | _ => false

/-- Tries to take up the failed element of a sequence again after passing over `skip`
characters. -/
def resumeAfter (ctx : Context) (probe : ClauseId → Nat → MatchM Outcome) (failed : ClauseId)
    (failedClause : Clause) (next : Option Clause) (pos skip : Nat) :
    MatchM (Option SequenceRepair) := do
  if leapsNext ctx.input failedClause next pos skip then return none
  match ← probe failed (pos + skip) with
  | .matched node =>
    if leapsSelf ctx.input failedClause pos skip then return none
    return some (.skip skip node)
  | _ => return none

/-- The repair of a sequence whose element `failed` does not match at `pos` and is followed by
`rest`. Before the end, the stretch that is passed over always leaves a character of input. -/
def repairSequence (ctx : Context) (probe : ClauseId → Nat → MatchM Outcome) (failed : ClauseId)
    (rest : List ClauseId) (pos : Nat) : MatchM (Option SequenceRepair) := do
  if ctx.input.size ≤ pos then return some .deleteRest
  let failedClause ← ctx.clause failed
  let next ← rest.head?.mapM ctx.clause
  (List.range' 1 (ctx.input.size - pos - 1)).findSomeM?
    (resumeAfter ctx probe failed failedClause next pos)

/-! ## Repetitions -/

/-- How a repetition goes on: so much input is passed over, and then the item matches with the
node, or nothing more comes. -/
structure RepetitionRepair where
  /-- The input passed over. -/
  skip : Nat
  /-- The match with which the repetition goes on. -/
  resumed : Option Node
deriving DecidableEq, Repr

/-- The repair of a repetition whose item does not match at `pos`; `repaired` says whether this
repetition has been repaired before. -/
def repairRepetition (ctx : Context) (probe : ClauseId → Nat → MatchM Outcome) (item : ClauseId)
    (pos : Nat) (repaired : Bool) : MatchM (Option RepetitionRepair) := do
  let found ← (List.range' 1 (ctx.input.size - pos)).findSomeM? fun skip => do
    return (← probe item (pos + skip)).node?.map fun node => (⟨skip, some node⟩ : RepetitionRepair)
  match found with
  | some repair => return some repair
  | none =>
    if repaired && pos < ctx.input.size then return some ⟨ctx.input.size - pos, none⟩
    else return none

/-- Counts a repair and makes the results of its position stale. -/
def recordRepair (pos : Nat) : MatchM Unit := do
  Session.tally fun work => { work with repairs := work.repairs + 1 }
  discard (Session.bump pos)

end Packrat
