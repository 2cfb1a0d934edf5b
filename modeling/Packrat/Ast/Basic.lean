import Packrat.Match.Parse

/-!
# Syntax trees

A syntax tree keeps of a match tree what a reader of the input cares about: one node for each
visible rule, one for each terminal, and one for each syntax error.

* `Ast` — the tree; `Ast.terminal`, `Ast.ofError`, `Ast.spanning?` make nodes.
* `Ast.child?`, `Ast.labeled`, `Ast.text` — queries.
* `Ast.pretty` — a drawing, one node a line.
* **`Ast.ofParse`** — the syntax tree of a parse, rooted at a node for the top rule.

References to transparent rules are dropped together with all that they matched; every other clause
without a node of its own passes its children's nodes on.
-/

namespace Packrat

/-- A node of a syntax tree. -/
structure Ast where
  /-- The name of a rule, or what else the node stands for. -/
  label : String
  /-- Where the node starts. -/
  pos : Nat
  /-- How many characters it covers. -/
  len : Nat
  /-- The syntax error that the node stands for. -/
  error : Option SyntaxError
  /-- The nodes below it. -/
  children : List Ast
deriving Repr

namespace Ast

/-- The label of nodes for terminals. -/
def terminalLabel : String := "<Terminal>"

/-- The label of nodes for syntax errors. -/
def errorLabel : String := "<SyntaxError>"

/-! ## Equality -/

mutual

/-- Equality of syntax trees is decidable. -/
def decEq : (a b : Ast) → Decidable (a = b)
  | ⟨label, pos, len, error, children⟩, ⟨label', pos', len', error', children'⟩ =>
    if h : label = label' ∧ pos = pos' ∧ len = len' ∧ error = error' then
      match decEqAll children children' with
      | isTrue h' => isTrue (by rw [h.1, h.2.1, h.2.2.1, h.2.2.2, h'])
      | isFalse h' => isFalse (by intro e; injection e; contradiction)
    else isFalse (by intro e; injection e; exact h ⟨‹_›, ‹_›, ‹_›, ‹_›⟩)

/-- Equality of lists of syntax trees is decidable. -/
def decEqAll : (as bs : List Ast) → Decidable (as = bs)
  | [], [] => isTrue rfl
  | [], _ :: _ | _ :: _, [] => isFalse nofun
  | a :: as, b :: bs =>
    match decEq a b with
    | isTrue h =>
      match decEqAll as bs with
      | isTrue h' => isTrue (by rw [h, h'])
      | isFalse h' => isFalse (by intro e; injection e; contradiction)
    | isFalse h => isFalse (by intro e; injection e; contradiction)

end

instance : DecidableEq Ast := decEq

/-! ## Making nodes -/

/-- The node of a terminal. -/
def terminal (pos len : Nat) : Ast := ⟨terminalLabel, pos, len, none, []⟩

/-- The node of a syntax error. -/
def ofError (error : SyntaxError) : Ast := ⟨errorLabel, error.pos, error.len, some error, []⟩

/-- A node over its children, from the start of the first to the end of the last; there is none
without children. -/
def spanning? (label : String) (children : List Ast) : Option Ast := do
  let first ← children.head?
  let last ← children.getLast?
  return ⟨label, first.pos, last.pos + last.len - first.pos, none, children⟩

/-- The node of a rule over its children, or where the rule matched if it has none. -/
def ofRule (label : String) (node : Node) (children : List Ast) : Ast :=
  (spanning? label children).getD ⟨label, node.pos, node.len, none, []⟩

/-! ## Queries -/

/-- Whether the node is labelled as a terminal. -/
def isTerminal (ast : Ast) : Bool := ast.label == terminalLabel

/-- Whether the node stands for a syntax error. -/
def isError (ast : Ast) : Bool := ast.error.isSome

/-- The text that the node covers. -/
def text (ast : Ast) (input : Array Char) : String := slice input ast.pos ast.len

/-- The first child with a label. -/
def child? (ast : Ast) (label : String) : Option Ast := ast.children.find? (·.label == label)

/-- The children with a label. -/
def labeled (ast : Ast) (label : String) : List Ast := ast.children.filter (·.label == label)

/-! ## Drawing -/

mutual

/-- The lines of a drawing: the node's own line starts with `lead`, and those below it with
`margin`. A node without children shows its text. -/
def lines (input : Array Char) (lead margin : String) : Ast → List String
  | ⟨label, pos, len, _, children⟩ =>
    (lead ++ label ++ (if children.isEmpty then ": \"" ++ slice input pos len ++ "\"" else ""))
      :: linesOf input margin children

/-- The lines of the children of a node. -/
def linesOf (input : Array Char) (margin : String) : List Ast → List String
  | [] => []
  | [last] => lines input (margin ++ "`---") (margin ++ "    ") last
  | child :: rest =>
    lines input (margin ++ "|---") (margin ++ "|   ") child ++ linesOf input margin rest

end

/-- The drawing of a tree, without a final line break. -/
def pretty (ast : Ast) (input : Array Char) : String :=
  String.intercalate "\n" (ast.lines input "" "")

/-! ## From match trees -/

mutual

/-- The syntax tree nodes of a match tree. -/
def ofNode (g : Grammar) : Node → List Ast
  | .clause info children =>
    match g.clause? info.clause with
    | none => []
    | some clause =>
      if clause.isTerminal then [terminal info.pos info.len]
      else if clause.isReference then
        match g.visibleName? info.clause, children with
        | some name, body :: _ => [ofRule name body (ofNode g body)]
        | _, _ => []
      else ofNodes g children
  | .skipped pos len => [ofError ⟨pos, len, none⟩]
  | .deleted pos id => [ofError ⟨pos, 0, some id⟩]

/-- The syntax tree nodes of several match trees. -/
def ofNodes (g : Grammar) : List Node → List Ast
  | [] => []
  | node :: rest => ofNode g node ++ ofNodes g rest

end

/-- **The syntax tree of a parse.** Input after the root becomes the last child. -/
def ofParse (p : Parse) : Ast :=
  ofRule p.topRule p.root (ofNode p.grammar p.root ++ p.unmatched.toList.map ofError)

end Ast
end Packrat
