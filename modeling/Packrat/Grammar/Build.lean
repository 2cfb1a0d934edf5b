import Packrat.Grammar.Basic
import Packrat.Grammar.Error

/-!
# From rules to a grammar

A grammar is built from a list of definitions, each a name with an expression. The name may carry
the transparency mark, and a rule may refer to rules that are defined after it.

* `Definition` — a rule as it is written.
* `lower` — the clauses of one expression, children before parents.
* `lowerAll` — all definitions in order, refusing repeated names and empty constructs on the way.
* `resolve` — fills in the targets of references.
* `endsInBody` — whether a chain of bare references reaches a clause of another kind.
* **`Grammar.build`** — all of it: no rules, then what `lowerAll` refuses, then undefined
  references in table order, then cyclic references in definition order.
-/

namespace Packrat

/-- A rule as it is written. -/
structure Definition where
  /-- The name, with its mark if it has one. -/
  name : String
  /-- The body. -/
  body : Expr
deriving Repr

/-! ## Lowering -/

mutual

/-- The clauses of an expression, to be placed from index `base` on, and the index of the
expression's own clause. Targets of references are left at zero. The name is that of the rule, for
messages. -/
def lower (rule : String) (base : Nat) : Expr → Except GrammarError (List Clause × ClauseId)
  | .literal text => return ([.literal text], base)
  | .char c => return ([.char c], base)
  | .charClass ranges inverted =>
    if ranges.isEmpty then throw (.emptyClause rule .characterClass)
    else return ([.charClass ranges inverted], base)
  | .anyChar => return ([.anyChar], base)
  | .empty => return ([.empty], base)
  | .seq items => do
    if items.isEmpty then throw (.emptyClause rule .sequence)
    let (clauses, ids) ← lowerItems rule base items
    return (clauses ++ [.seq ids], base + clauses.length)
  | .choice items => do
    if items.isEmpty then throw (.emptyClause rule .choice)
    let (clauses, ids) ← lowerItems rule base items
    return (clauses ++ [.choice ids], base + clauses.length)
  | .repeated item atLeastOne => do
    let (clauses, id) ← lower rule base item
    return (clauses ++ [.repeated id atLeastOne], base + clauses.length)
  | .optional item => do
    let (clauses, id) ← lower rule base item
    return (clauses ++ [.optional id], base + clauses.length)
  | .reference name => return ([.reference (unmarked name) 0], base)
  | .ahead item => do
    let (clauses, id) ← lower rule base item
    return (clauses ++ [.ahead id], base + clauses.length)
  | .notAhead item => do
    let (clauses, id) ← lower rule base item
    return (clauses ++ [.notAhead id], base + clauses.length)

/-- The clauses of several expressions, one after the other, and the indices of their own
clauses. -/
def lowerItems (rule : String) (base : Nat) :
    List Expr → Except GrammarError (List Clause × List ClauseId)
  | [] => return ([], [])
  | item :: rest => do
    let (first, id) ← lower rule base item
    let (others, ids) ← lowerItems rule (base + first.length) rest
    return (first ++ others, id :: ids)

end

/-- Refuses a name that one of the earlier rules has. -/
def checkName (earlier : List Rule) (name : String) (transparent : Bool) :
    Except GrammarError Unit :=
  match earlier.find? (·.name == name) with
  | none => return ()
  | some rule =>
    if rule.transparent != transparent then throw (.transparencyConflict name)
    else throw (.duplicateRule name)

/-- Lowers definitions in order, after the clauses and rules of those before them. -/
def lowerAll (clauses : List Clause) (rules : List Rule) :
    List Definition → Except GrammarError (List Clause × List Rule)
  | [] => return (clauses, rules)
  | definition :: rest => do
    let name := unmarked definition.name
    let transparent := isMarked definition.name
    checkName rules name transparent
    let (more, body) ← lower name clauses.length definition.body
    lowerAll (clauses ++ more) (rules ++ [⟨name, transparent, body⟩]) rest

/-! ## References -/

/-- Fills in the target of a reference; other clauses stay as they are. -/
def resolve (rules : List Rule) : Clause → Except GrammarError Clause
  | .reference name _ =>
    match rules.find? (·.name == name) with
    | some rule => return .reference name rule.body
    | none => throw (.undefinedRule name)
  | clause => return clause

/-- Whether the chain of bare references that starts at a clause reaches a clause of another kind
in fewer than `fuel` steps. -/
def endsInBody (clauses : Array Clause) : Nat → ClauseId → Bool
  | 0, _ => false
  | fuel + 1, id =>
    match clauses[id]? with
    | some (.reference _ target) => endsInBody clauses fuel target
    | _ => true

/-- Refuses rules that only refer to each other. A chain that does not end within as many steps as
there are clauses goes round in a circle. -/
def checkCycles (clauses : Array Clause) : List Rule → Except GrammarError Unit
  | [] => return ()
  | rule :: rest =>
    if endsInBody clauses (clauses.size + 1) rule.body then checkCycles clauses rest
    else throw (.cyclicReference rule.name)

/-! ## Building -/

/-- **The grammar of a list of definitions**, or the reason why there is none. -/
def Grammar.build (definitions : List Definition) : Except GrammarError Grammar := do
  if definitions.isEmpty then throw .noRules
  let (lowered, rules) ← lowerAll [] [] definitions
  let resolved ← lowered.mapM (resolve rules)
  let clauses := resolved.toArray
  checkCycles clauses rules
  return ⟨clauses, rules⟩

end Packrat
