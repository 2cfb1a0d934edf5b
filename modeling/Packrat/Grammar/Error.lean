/-!
# What is wrong with a grammar

* `GrammarError` — the ways in which a list of rules, or a specification text, is refused.
* `GrammarError.message`, `GrammarError.code`, `GrammarError.help?` — its wording, its stable code
  and the advice that some causes carry.

Syntax errors in an *input* are never reported here: they are data in the match tree.
-/

namespace Packrat

/-- The constructs that need at least one element. -/
inductive EmptyKind where
  | sequence
  | choice
  | characterClass
deriving DecidableEq, Repr

/-- The construct's name in messages. -/
def EmptyKind.text : EmptyKind → String
  | .sequence => "sequence"
  | .choice => "choice"
  | .characterClass => "character class"

/-- Why no grammar could be built. -/
inductive GrammarError where
  /-- A reference names no rule. -/
  | undefinedRule (name : String)
  /-- A name is defined twice with the same mark. -/
  | duplicateRule (name : String)
  /-- A chain of bare references never reaches a clause that matches something. -/
  | cyclicReference (name : String)
  /-- A name is defined both with and without the transparency mark. -/
  | transparencyConflict (name : String)
  /-- A construct without elements. -/
  | emptyClause (rule : String) (kind : EmptyKind)
  /-- There are no rules at all. -/
  | noRules
  /-- A specification text has syntax errors, described in document order. -/
  | rejected (errors : List String)
  /-- A specification's tree does not have the expected shape. -/
  | malformed (reason : String)
deriving DecidableEq, Repr

namespace GrammarError

/-- The message of an error. -/
def message : GrammarError → String
  | .undefinedRule name => "Rule \"" ++ name ++ "\" not found"
  | .duplicateRule name => "Rule \"" ++ name ++ "\" is defined more than once"
  | .cyclicReference name =>
    "Rule \"" ++ name ++ "\" only refers to itself through other rule references"
  | .transparencyConflict name =>
    "Rule \"" ++ name ++ "\" cannot be both transparent and non-transparent"
  | .emptyClause rule kind => "Empty " ++ kind.text ++ " in rule \"" ++ rule ++ "\""
  | .noRules => "Grammar has no rules"
  | .rejected errors =>
    "Syntax errors in grammar specification: " ++ String.intercalate ", " errors
  | .malformed reason => "Malformed grammar: " ++ reason

/-- The stable code of an error. -/
def code : GrammarError → String
  | .undefinedRule _ => "squirrel::grammar::undefined_rule"
  | .duplicateRule _ => "squirrel::grammar::duplicate_rule"
  | .cyclicReference _ => "squirrel::grammar::cyclic_reference"
  | .transparencyConflict _ => "squirrel::grammar::transparency_conflict"
  | .emptyClause _ _ => "squirrel::grammar::empty_clause"
  | .noRules => "squirrel::grammar::no_rules"
  | .rejected _ => "squirrel::grammar::syntax"
  | .malformed _ => "squirrel::grammar::malformed"

/-- Advice, for the causes that have some. -/
def help? : GrammarError → Option String
  | .cyclicReference _ =>
    some "at least one rule in the cycle must match something other than a rule reference"
  | .emptyClause _ _ =>
    some "sequences, choices and character classes need at least one element"
  | _ => none

end GrammarError
end Packrat
