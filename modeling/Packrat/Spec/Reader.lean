import Packrat.Ast.Basic
import Packrat.Spec.Notation

/-!
# Reading specifications

* `Spec.toExpr` — the expression that a syntax tree of the notation stands for.
* `Spec.toDefinition` — the rule that a syntax tree stands for.
* `Spec.readTraced` — from a text to a grammar, with the events of the run.
* **`Spec.read`** — from a text to a grammar.

A sequence or choice of one item stands for the item alone, parentheses only group, and a `~` before
an expression has no meaning of its own. A specification has to be free of syntax errors; repairs
serve only to report all errors at once.
-/

namespace Packrat
namespace Spec

variable (input : Array Char)

/-! ## Texts -/

/-- The characters that a node covers. -/
def chars (ast : Ast) : List Char := (input.extract ast.pos (ast.pos + ast.len)).toList

/-- Whether a node is a terminal with that text. -/
def isToken (ast : Ast) (token : String) : Bool := ast.isTerminal && chars input ast == token.toList

/-- What stands between the quotes of a literal. -/
def quotedBody (ast : Ast) : List Char :=
  if ast.len < 2 then [] else (input.extract (ast.pos + 1) (ast.pos + ast.len - 1)).toList

/-! ## Character classes -/

/-- A member of a character class. -/
def classMember (ast : Ast) : Except GrammarError Char :=
  match Escape.decodeChar? (chars input ast) with
  | some c => return c
  | none =>
    throw (.malformed ("bad character class member " ++ String.ofList (chars input ast)))

/-- The ranges among the nodes of a character class. -/
def classRanges : List Ast → Except GrammarError (List CharRange)
  | [] => return []
  | ast :: rest => do
    if ast.label = "CharRange" then
      match ast.labeled "CharClassChar" with
      | lo :: hi :: _ =>
        let range := ⟨← classMember input lo, ← classMember input hi⟩
        return range :: (← classRanges rest)
      | _ => throw (.malformed "incomplete character range")
    else if ast.label = "CharClassChar" then
      let c ← classMember input ast
      return .single c :: (← classRanges rest)
    else classRanges rest

/-! ## Expressions -/

/-- The expression of an operator before its operand. -/
def applyBefore (operator : List Char) (operand : Expr) : Except GrammarError Expr :=
  if operator = ['&'] then return .ahead operand
  else if operator = ['!'] then return .notAhead operand
  else if operator = ['~'] then return operand
  else throw (.malformed ("unknown prefix " ++ String.ofList operator))

/-- The expression of an operator after its operand. -/
def applyAfter (operator : List Char) (operand : Expr) : Except GrammarError Expr :=
  if operator = ['*'] then return .star operand
  else if operator = ['+'] then return .plus operand
  else if operator = ['?'] then return .optional operand
  else throw (.malformed ("unknown suffix " ++ String.ofList operator))

/-- One item stands for itself, several are combined. -/
def collapse (label : String) (combine : List Expr → Expr) : List Expr → Except GrammarError Expr
  | [] => throw (.malformed ("empty " ++ label))
  | [item] => return item
  | items => return combine items

/-- The expression of a node that has no expressions below it. -/
def leafExpr (ast : Ast) : Except GrammarError Expr :=
  match ast.label with
  | "Identifier" => return .reference (String.ofList (chars input ast))
  | "StringLiteral" => return .literal (Escape.decode (quotedBody input ast))
  | "CharLiteral" =>
    match Escape.decodeChar? (quotedBody input ast) with
    | some c => return .char c
    | none =>
      throw (.malformed ("bad char literal '" ++ String.ofList (quotedBody input ast) ++ "'"))
  | "CharClass" => do
    let inverted := ast.children[1]?.any (isToken input · "^")
    return .charClass (← classRanges input ast.children) inverted
  | "AnyChar" => return .anyChar
  | other => throw (.malformed ("unexpected node " ++ other))

mutual

/-- **The expression that a syntax tree stands for.** -/
def toExpr : Ast → Except GrammarError Expr
  | ⟨label, pos, len, error, children⟩ =>
    match label with
    | "Expression" | "Primary" =>
      match children with
      | [child] => toExpr child
      | _ => throw (.malformed (label ++ " must have exactly one child"))
    | "Choice" => do collapse label .choice (← toExprs "Sequence" children)
    | "Sequence" => do collapse label .seq (← toExprs "Prefix" children)
    | "Prefix" =>
      match children with
      | [operator, operand] =>
        if operator.isTerminal then do applyBefore (chars input operator) (← toExpr operand)
        else throw (.malformed "malformed prefix expression")
      | [operand] => toExpr operand
      | _ => throw (.malformed "malformed prefix expression")
    | "Suffix" =>
      match children with
      | [operand, operator] =>
        if operator.isTerminal then do applyAfter (chars input operator) (← toExpr operand)
        else throw (.malformed "malformed suffix expression")
      | [operand] => toExpr operand
      | _ => throw (.malformed "malformed suffix expression")
    | "Parens" => (toChildExpr? "Expression" children).getD (return .empty)
    | _ => leafExpr input ⟨label, pos, len, error, children⟩

/-- The expressions of the nodes with a label. -/
def toExprs (label : String) : List Ast → Except GrammarError (List Expr)
  | [] => return []
  | ast :: rest => do
    if ast.label = label then
      let item ← toExpr ast
      return item :: (← toExprs label rest)
    else toExprs label rest

/-- The expression of the first node with a label, if there is one. -/
def toChildExpr? (label : String) : List Ast → Option (Except GrammarError Expr)
  | [] => none
  | ast :: rest => if ast.label = label then some (toExpr ast) else toChildExpr? label rest

end

/-- It is the first child with the label that is read. -/
theorem toChildExpr?_children (label : String) (ast : Ast) :
    toChildExpr? input label ast.children = (ast.child? label).map (toExpr input) := by
  unfold Ast.child?
  induction ast.children with
  | nil => rfl
  | cons first rest ih =>
    rw [toChildExpr?, List.find?_cons]
    by_cases hlabel : first.label = label
    · simp [hlabel]
    · rw [if_neg hlabel, ih, beq_eq_false_iff_ne.2 hlabel]

/-- Parentheses stand for the first expression between them, or for nothing. -/
theorem toExpr_parens {ast : Ast} (h : ast.label = "Parens") :
    toExpr input ast =
      match ast.child? "Expression" with
      | some inner => toExpr input inner
      | none => return .empty := by
  obtain ⟨label, pos, len, error, children⟩ := ast
  obtain rfl : label = "Parens" := h
  have hchild := toChildExpr?_children input "Expression" ⟨"Parens", pos, len, error, children⟩
  rw [toExpr, hchild]
  cases Ast.child? _ "Expression" <;> rfl

/-! ## Rules -/

/-- The rule that a syntax tree stands for. -/
def toDefinition (ast : Ast) : Except GrammarError Definition := do
  if ast.label != "Rule" then
    throw (.malformed ("expected Rule, found " ++ ast.label))
  let some name := ast.child? "Identifier" | throw (.malformed "rule without a name")
  let some body := ast.child? "Expression" | throw (.malformed "rule without a body")
  let mark := if ast.children.head?.any (isToken input · "~") then ['~'] else []
  return ⟨String.ofList (mark ++ chars input name), ← toExpr input body⟩

end Spec

/-! ## Grammars -/

/-- Builds a grammar and reports it. -/
def Grammar.buildTraced (definitions : List Definition) :
    Except GrammarError Grammar × List Event :=
  match Grammar.build definitions with
  | .ok g => (.ok g, [.grammarBuilt g.rules.length g.clauses.size])
  | .error e => (.error e, [])

namespace Spec

/-- Parses a specification with the grammar of the notation. -/
def parseNotation (spec : String) : Except GrammarError (Parse × List Event) := do
  let g ← notationGrammar
  match Job.make g "Grammar" spec {} with
  | .ok job => return job.run
  | .error e => throw (.malformed e.message)

/-- Reads a specification, with the events of the run. -/
def readTraced (spec : String) : Except GrammarError Grammar × List Event :=
  match parseNotation spec with
  | .error e => (.error e, [])
  | .ok (p, events) =>
    if p.hasErrors then
      (.error (.rejected p.descriptions), events ++ [.specRejected p.descriptions.length])
    else
      match (Ast.ofParse p).children.mapM (toDefinition p.input) with
      | .error e => (.error e, events)
      | .ok definitions =>
        let (result, more) := Grammar.buildTraced definitions
        (result, events ++ more)

/-- **Reads a specification.** -/
def read (spec : String) : Except GrammarError Grammar := (readTraced spec).1

end Spec
end Packrat
