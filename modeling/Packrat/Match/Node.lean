import Packrat.Match.SyntaxError

/-!
# Match trees

* `Node` — a match of a clause with its children, or a syntax error that stands in for one.
* `Node.terminal`, `Node.emptyAt`, `Node.wrap`, `Node.wrapOne` — the ways to make a match.
* `Node.syntaxErrors` — the errors of a tree in document order.
* `Outcome` — what matching a clause at a position gives: nothing, nothing *yet*, or a node.
* `Outcome.longerThan` — the order in which growing a match makes progress: no match at all comes
  below every match, and matches compare by length.

`Outcome.pending` is the answer of a left-recursive clause that has no match yet. It counts as a
mismatch everywhere, except that it never asks for a repair.
-/

namespace Packrat

/-! ## Nodes -/

/-- What a match of a clause records beside its children. -/
structure NodeInfo where
  /-- The clause that matched. -/
  clause : ClauseId
  /-- Where the match starts. -/
  pos : Nat
  /-- How many characters it covers. -/
  len : Nat
  /-- False when the match stopped where more input could have been consumed. -/
  complete : Bool
  /-- Whether the match was made while a left-recursive match was being grown. -/
  grown : Bool
  /-- How many syntax errors the tree holds. -/
  errors : Nat
deriving DecidableEq, Repr

/-- A match tree. -/
inductive Node where
  /-- A match of a clause. -/
  | clause (info : NodeInfo) (children : List Node)
  /-- Input that was passed over. -/
  | skipped (pos len : Nat)
  /-- A clause that was taken as present without consuming input. -/
  | deleted (pos : Nat) (id : ClauseId)
deriving Repr

namespace Node

mutual

/-- Equality of match trees is decidable. -/
def decEq : (a b : Node) → Decidable (a = b)
  | .clause info children, .clause info' children' =>
    if h : info = info' then
      match decEqAll children children' with
      | isTrue h' => isTrue (by rw [h, h'])
      | isFalse h' => isFalse (by intro e; injection e; contradiction)
    else isFalse (by intro e; injection e; contradiction)
  | .skipped pos len, .skipped pos' len' =>
    if h : pos = pos' ∧ len = len' then isTrue (by rw [h.1, h.2])
    else isFalse (by intro e; injection e; exact h ⟨‹_›, ‹_›⟩)
  | .deleted pos id, .deleted pos' id' =>
    if h : pos = pos' ∧ id = id' then isTrue (by rw [h.1, h.2])
    else isFalse (by intro e; injection e; exact h ⟨‹_›, ‹_›⟩)
  | .clause _ _, .skipped _ _ | .clause _ _, .deleted _ _ | .skipped _ _, .clause _ _
  | .skipped _ _, .deleted _ _ | .deleted _ _, .clause _ _ | .deleted _ _, .skipped _ _ =>
    isFalse nofun

/-- Equality of lists of match trees is decidable. -/
def decEqAll : (as bs : List Node) → Decidable (as = bs)
  | [], [] => isTrue rfl
  | [], _ :: _ | _ :: _, [] => isFalse nofun
  | a :: as, b :: bs =>
    match decEq a b with
    | isTrue h =>
      match decEqAll as bs with
      | isTrue h' => isTrue (by rw [h, h'])
      | isFalse h' => isFalse (by intro e; injection e; contradiction)
    | isFalse h => isFalse (by intro e; injection e; contradiction)

end

instance : DecidableEq Node := decEq

/-! ### Reading a node -/

/-- Where a node starts. -/
def pos : Node → Nat
  | .clause info _ => info.pos
  | .skipped pos _ => pos
  | .deleted pos _ => pos

/-- How many characters a node covers. -/
def len : Node → Nat
  | .clause info _ => info.len
  | .skipped _ len => len
  | .deleted _ _ => 0

/-- Where a node ends. -/
def stop (node : Node) : Nat := node.pos + node.len

/-- The children of a match; errors have none. -/
def children : Node → List Node
  | .clause _ children => children
  | _ => []

/-- Whether a node could not have covered more input; errors count as complete. -/
def isComplete : Node → Bool
  | .clause info _ => info.complete
  | _ => true

/-- Whether a node was made while a left-recursive match was being grown. -/
def isGrown : Node → Bool
  | .clause info _ => info.grown
  | _ => false

/-- The number of syntax errors that a node records for its tree. -/
def errors : Node → Nat
  | .clause info _ => info.errors
  | _ => 1

/-- The clause that matched, or that is missing. -/
def clause? : Node → Option ClauseId
  | .clause info _ => some info.clause
  | .skipped _ _ => none
  | .deleted _ id => some id

/-- A node that is a syntax error, as one. -/
def error? : Node → Option SyntaxError
  | .clause _ _ => none
  | .skipped pos len => some ⟨pos, len, none⟩
  | .deleted pos id => some ⟨pos, 0, some id⟩

/-! ### Making a node -/

/-- A match without children. -/
def terminal (id : ClauseId) (pos len : Nat) : Node := .clause ⟨id, pos, len, true, false, 0⟩ []

/-- A match of nothing. -/
def emptyAt (id : ClauseId) (pos : Nat) (complete : Bool) : Node :=
  .clause ⟨id, pos, 0, complete, false, 0⟩ []

/-- The number of syntax errors that several nodes record. -/
def totalErrors (nodes : List Node) : Nat := nodes.foldr (fun node total => node.errors + total) 0

/-- A match made of other nodes: it reaches from the start of the first to the end of the last. -/
def wrap (id : ClauseId) (children : List Node) (complete : Bool) : Node :=
  let start := (children.head?.map pos).getD 0
  let final := (children.getLast?.map stop).getD 0
  .clause ⟨id, start, final - start, complete, children.any isGrown, totalErrors children⟩ children

/-- A match made of one other node. -/
def wrapOne (id : ClauseId) (child : Node) (complete : Bool) : Node := wrap id [child] complete

/-- The node, marked as made during the growth of a left-recursive match; errors stay as they
are. -/
def markGrown : Node → Node
  | .clause info children => .clause { info with grown := true } children
  | node => node

/-! ### Errors and dumps -/

mutual

/-- The syntax errors of a tree in document order. -/
def syntaxErrors : Node → List SyntaxError
  | .clause _ children => syntaxErrorsOf children
  | .skipped pos len => [⟨pos, len, none⟩]
  | .deleted pos id => [⟨pos, 0, some id⟩]

/-- The syntax errors of several trees in document order. -/
def syntaxErrorsOf : List Node → List SyntaxError
  | [] => []
  | node :: rest => syntaxErrors node ++ syntaxErrorsOf rest

end

/-- The line of a node in a dump, without indentation: references go by the name of their rule and
other clauses by kind, and a match without children shows its text. -/
def headline (g : Grammar) (input : Array Char) : Node → String
  | .clause info children =>
    let name := (g.ruleName? info.clause).getD (((g.clause? info.clause).map Clause.kindName).getD "")
    if children.isEmpty then name ++ ": \"" ++ slice input info.pos info.len ++ "\"" else name
  | .skipped pos len => "<SyntaxError>: " ++ (SyntaxError.mk pos len none).describe g
  | .deleted pos id => "<SyntaxError>: " ++ (SyntaxError.mk pos 0 (some id)).describe g

/-- The indentation of a nesting level in a dump. -/
def indentation (depth : Nat) : String := String.ofList (List.replicate (2 * depth) ' ')

mutual

/-- The lines of a dump: a node, then its children one level deeper. -/
def lines (g : Grammar) (input : Array Char) (depth : Nat) : Node → List String
  | .clause info children =>
    (indentation depth ++ headline g input (.clause info children))
      :: linesOf g input (depth + 1) children
  | node => [indentation depth ++ headline g input node]

/-- The lines of several nodes at one level. -/
def linesOf (g : Grammar) (input : Array Char) (depth : Nat) : List Node → List String
  | [] => []
  | node :: rest => lines g input depth node ++ linesOf g input depth rest

end

/-- The indented dump of a match tree. -/
def pretty (g : Grammar) (input : Array Char) (node : Node) : String :=
  String.join ((node.lines g input 0).map (· ++ "\n"))

end Node

/-! ## Outcomes -/

/-- What matching a clause at a position gives. -/
inductive Outcome where
  /-- The clause does not match. -/
  | mismatch
  /-- The clause is left recursive and has no match yet. -/
  | pending
  /-- The clause matches. -/
  | matched (node : Node)
deriving DecidableEq, Repr

namespace Outcome

/-- The node of a match. -/
def node? : Outcome → Option Node
  | .matched node => some node
  | _ => none

/-- Whether there is a match. -/
def isMatch : Outcome → Bool
  | .matched _ => true
  | _ => false

/-- The length of a match. -/
def len? (outcome : Outcome) : Option Nat := outcome.node?.map Node.len

/-- Whether there is a match and it is complete. -/
def isComplete (outcome : Outcome) : Bool := outcome.node?.any Node.isComplete

/-- Whether the outcome hangs on a left-recursive match that is being grown. -/
def isGrown : Outcome → Bool
  | .mismatch => false
  | .pending => true
  | .matched node => node.isGrown

/-- The number of syntax errors in a match. -/
def errors (outcome : Outcome) : Nat := (outcome.node?.map Node.errors).getD 0

/-- Whether the first outcome makes progress over the second. -/
def longerThan (new old : Outcome) : Bool :=
  match new.len?, old.len? with
  | some n, some m => m < n
  | some _, none => true
  | none, _ => false

/-- The outcome, marked as made during the growth of a left-recursive match. -/
def markGrown : Outcome → Outcome
  | .matched node => .matched node.markGrown
  | _ => .pending

/-- The dump of a match. -/
def pretty (g : Grammar) (input : Array Char) : Outcome → String
  | .matched node => node.pretty g input
  | _ => "MISMATCH\n"

end Outcome
end Packrat
