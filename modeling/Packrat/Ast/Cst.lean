import Packrat.Ast.Basic

/-!
# Values from syntax trees

A caller turns a syntax tree into values of its own with one factory for each label. A factory gets
the node and the values of its children, and may have effects.

* `CstError` — what can go wrong.
* `Factories` — the factories by label; a label is registered once.
* **`Ast.construct`** — builds a value from the leaves up. A node is checked before its children are
  visited, and its factory runs after all of theirs.

A node that stands for a syntax error is built by the factory for `Ast.errorLabel`, without its
children, and only if errors are allowed.
-/

namespace Packrat

/-! ## Errors -/

/-- Why no value can be built. -/
inductive CstError where
  /-- A label is registered twice. -/
  | duplicateFactory (label : String)
  /-- A label of the tree is not registered. -/
  | missingFactory (label : String)
  /-- The tree has a syntax error, and errors are not allowed. -/
  | syntaxError (message : String)
deriving DecidableEq, Repr

namespace CstError

/-- The message of an error. -/
def message : CstError → String
  | .duplicateFactory label => "Duplicate factory for rule \"" ++ label ++ "\""
  | .missingFactory label => "No factory found for rule \"" ++ label ++ "\""
  | .syntaxError message => "Syntax error: " ++ message

/-- The stable code of an error. -/
def code : CstError → String
  | .duplicateFactory _ => "squirrel::cst::duplicate_factory"
  | .missingFactory _ => "squirrel::cst::missing_factory"
  | .syntaxError _ => "squirrel::cst::syntax_error"

/-- Advice, for the causes that have some. -/
def help? : CstError → Option String
  | .syntaxError _ =>
    some "pass allow_syntax_errors = true and register a <SyntaxError> factory"
  | _ => none

end CstError

/-! ## Factories -/

/-- Makes the value of a node from the values of its children. -/
abbrev Factory (m : Type → Type) (α : Type) := Ast → List α → m α

/-- The factories by label. -/
structure Factories (m : Type → Type) (α : Type) where
  /-- The registered labels with their factories. -/
  entries : List (String × Factory m α) := []

namespace Factories

variable {m : Type → Type} {α : Type}

/-- The factory of a label. -/
def get? (factories : Factories m α) (label : String) : Option (Factory m α) :=
  factories.entries.lookup label

/-- Whether a label is registered. -/
def contains (factories : Factories m α) (label : String) : Bool := (factories.get? label).isSome

/-- Registers the factory of a label. -/
def add (factories : Factories m α) (label : String) (factory : Factory m α) :
    Except CstError (Factories m α) :=
  if factories.contains label then throw (.duplicateFactory label)
  else return ⟨factories.entries ++ [(label, factory)]⟩

/-- The factory that is to build a node: that of its label, or that of errors for a node that stands
for one. -/
def factoryFor (factories : Factories m α) (allowErrors : Bool) (label : String)
    (error : Option SyntaxError) : Except CstError (Factory m α) := do
  if let some e := error then
    if !allowErrors then throw (.syntaxError e.message)
  let label := if error.isSome then Ast.errorLabel else label
  match factories.get? label with
  | some factory => return factory
  | none => throw (.missingFactory label)

end Factories

/-! ## Construction -/

namespace Ast

variable {m : Type → Type} {α : Type} [Monad m]

mutual

/-- **The value of a syntax tree**, with the effects of the factories that ran before a failure. -/
def construct (factories : Factories m α) (allowErrors : Bool) : Ast → ExceptT CstError m α
  | ⟨label, pos, len, error, children⟩ => do
    let factory ← ExceptT.mk (pure (factories.factoryFor allowErrors label error))
    let values ← if error.isSome then pure [] else constructAll factories allowErrors children
    ExceptT.lift (factory ⟨label, pos, len, error, children⟩ values)

/-- The values of several syntax trees, in order. -/
def constructAll (factories : Factories m α) (allowErrors : Bool) :
    List Ast → ExceptT CstError m (List α)
  | [] => return []
  | ast :: rest => do
    let value ← construct factories allowErrors ast
    let values ← constructAll factories allowErrors rest
    return value :: values

end

end Ast
end Packrat
