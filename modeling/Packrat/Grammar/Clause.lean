import Packrat.Grammar.Expr

/-!
# Clauses

A built grammar is a flat table of clauses that refer to each other by index.

* `ClauseId` — the index of a clause in its table.
* `Clause` — one node of a grammar: the constructors of `Expr` with indices in place of
  subexpressions, and with the target of each reference resolved.
* `Clause.children`, `Clause.isTerminal`, `Clause.isReference` — its shape.
* `Clause.kindName` — what the node is called where it has no name of its own.

Identity is the index, not the structure: two equal subexpressions are two clauses.
-/

namespace Packrat

/-- The index of a clause in the table of its grammar. -/
abbrev ClauseId := Nat

/-- The name of a clause by its index. -/
def ClauseId.text (id : ClauseId) : String := "#" ++ toString id

/-- One node of a grammar. -/
inductive Clause where
  /-- An exact text. -/
  | literal (text : List Char)
  /-- One given character. -/
  | char (c : Char)
  /-- One character inside, or when inverted outside, all of the ranges. -/
  | charClass (ranges : List CharRange) (inverted : Bool)
  /-- Any one character. -/
  | anyChar
  /-- Nothing; always matches. -/
  | empty
  /-- All items in order. -/
  | seq (items : List ClauseId)
  /-- The first item that matches. -/
  | choice (items : List ClauseId)
  /-- The item as often as it matches, at least once if `atLeastOne`. -/
  | repeated (item : ClauseId) (atLeastOne : Bool)
  /-- The item or nothing. -/
  | optional (item : ClauseId)
  /-- The named rule, whose body is the clause `target`. -/
  | reference (name : String) (target : ClauseId)
  /-- Nothing, where the item would match. -/
  | ahead (item : ClauseId)
  /-- Nothing, where the item would not match. -/
  | notAhead (item : ClauseId)
deriving DecidableEq, Repr

namespace Clause

/-- Terminals look at the input alone. -/
def isTerminal : Clause → Bool
  | .literal _ | .char _ | .charClass _ _ | .anyChar | .empty => true
  | _ => false

/-- References stand for the body of a rule. -/
def isReference : Clause → Bool
  | .reference _ _ => true
  | _ => false

/-- The clauses that this one consults, in order; for a reference, its target. -/
def children : Clause → List ClauseId
  | .literal _ | .char _ | .charClass _ _ | .anyChar | .empty => []
  | .seq items | .choice items => items
  | .repeated item _ | .optional item | .ahead item | .notAhead item => [item]
  | .reference _ target => [target]

/-- The kind of a clause in the dump of a match tree. -/
def kindName : Clause → String
  | .literal _ => "Literal"
  | .char _ => "Char"
  | .charClass _ _ => "CharSet"
  | .anyChar => "AnyChar"
  | .empty => "Empty"
  | .seq _ => "Sequence"
  | .choice _ => "OrderedChoice"
  | .repeated _ true => "OneOrMore"
  | .repeated _ false => "ZeroOrMore"
  | .optional _ => "Optional"
  | .reference _ _ => "RuleRef"
  | .ahead _ => "FollowedBy"
  | .notAhead _ => "NotFollowedBy"

end Clause
end Packrat
