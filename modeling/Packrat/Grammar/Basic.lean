import Packrat.Grammar.Clause
import Packrat.Text.Quoted

/-!
# Grammars

* `Rule`, `Grammar` — a table of clauses together with the rules in definition order.
* `unmarked`, `isMarked` — a rule name may carry one leading `~`, which says that the rule is
  *transparent*: it matches like any other but leaves no trace in the syntax tree.
* `Grammar.rule?`, `Grammar.ruleName?`, `Grammar.visibleName?` and their kin — lookups.
* `Grammar.exprAt?` — reads an expression back from the table.
* `Grammar.display`, `Grammar.render` — a clause, and a whole grammar, in grammar notation.
-/

namespace Packrat

/-! ## Names -/

/-- Whether a rule name carries the transparency mark. -/
def isMarked (name : String) : Bool := name.toList.head? = some '~'

/-- A rule name without its mark; only one mark is removed. -/
def unmarked (name : String) : String :=
  match name.toList with
  | '~' :: rest => String.ofList rest
  | _ => name

/-! ## Grammars -/

/-- A named rule of a grammar. -/
structure Rule where
  /-- The name, without a mark. -/
  name : String
  /-- Whether the rule leaves no trace in syntax trees. -/
  transparent : Bool
  /-- The clause that the rule stands for. -/
  body : ClauseId
deriving DecidableEq, Repr

/-- A grammar: clauses that refer to each other by index, and rules that name some of them. -/
structure Grammar where
  /-- The clauses, children before parents. -/
  clauses : Array Clause
  /-- The rules in definition order. -/
  rules : List Rule
deriving DecidableEq, Repr

namespace Grammar

/-- The clause with that index. -/
def clause? (g : Grammar) (id : ClauseId) : Option Clause := g.clauses[id]?

/-- The rule of exactly that name. -/
def findRule? (g : Grammar) (name : String) : Option Rule :=
  g.rules.find? (·.name == name)

/-- The body of the named rule; one leading mark of the name is ignored. -/
def rule? (g : Grammar) (name : String) : Option ClauseId :=
  (g.findRule? (unmarked name)).map (·.body)

/-- The names of the rules in definition order. -/
def ruleNames (g : Grammar) : List String := g.rules.map (·.name)

/-- Whether the named rule is transparent; no mark is ignored here. -/
def isTransparent (g : Grammar) (name : String) : Bool :=
  (g.findRule? name).any (·.transparent)

/-- The names of the transparent rules in definition order. -/
def transparentNames (g : Grammar) : List String :=
  (g.rules.filter (·.transparent)).map (·.name)

/-- The name that a reference carries. -/
def ruleName? (g : Grammar) (id : ClauseId) : Option String :=
  match g.clause? id with
  | some (.reference name _) => some name
  | _ => none

/-- The name that a reference to a rule carries, unless the rule is transparent. -/
def visibleName? (g : Grammar) (id : ClauseId) : Option String :=
  (g.ruleName? id).filter (fun name => !g.isTransparent name)

/-! ## Reading back -/

/-- The expression of a clause, to a nesting depth of `fuel`. -/
def exprAtFuel? (g : Grammar) : Nat → ClauseId → Option Expr
  | 0, _ => none
  | fuel + 1, id => do
    match ← g.clause? id with
    | .literal text => return .literal text
    | .char c => return .char c
    | .charClass ranges inverted => return .charClass ranges inverted
    | .anyChar => return .anyChar
    | .empty => return .empty
    | .seq items => return .seq (← items.mapM (exprAtFuel? g fuel))
    | .choice items => return .choice (← items.mapM (exprAtFuel? g fuel))
    | .repeated item atLeastOne => return .repeated (← exprAtFuel? g fuel item) atLeastOne
    | .optional item => return .optional (← exprAtFuel? g fuel item)
    | .reference name _ => return .reference name
    | .ahead item => return .ahead (← exprAtFuel? g fuel item)
    | .notAhead item => return .notAhead (← exprAtFuel? g fuel item)

/-- The expression of a clause. Children come before their parents in the table, so a depth of one
more than the index is enough. -/
def exprAt? (g : Grammar) (id : ClauseId) : Option Expr := g.exprAtFuel? (id + 1) id

/-! ## Notation -/

/-- A clause in grammar notation. -/
def displayChars (g : Grammar) (id : ClauseId) : List Char :=
  ((g.exprAt? id).map Expr.render).getD []

/-- A clause in grammar notation, as a string. -/
def display (g : Grammar) (id : ClauseId) : String := String.ofList (g.displayChars id)

/-- One rule in grammar notation, with its line break. -/
def renderRule (g : Grammar) (rule : Rule) : List Char :=
  (if rule.transparent then ['~'] else []) ++ rule.name.toList ++ " <- ".toList
    ++ g.displayChars rule.body ++ " ;\n".toList

/-- A whole grammar in grammar notation, one rule a line. -/
def render (g : Grammar) : String := String.ofList (g.rules.flatMap g.renderRule)

/-- A one-line summary: the quoted rule names and the number of clauses. -/
def summary (g : Grammar) : String :=
  "Grammar \x7b rules: [" ++ String.intercalate ", " (g.ruleNames.map Quoted.quote)
    ++ "], clauses: " ++ toString g.clauses.size ++ " \x7d"

end Grammar
end Packrat
