import Packrat.Ast.Cst
import Packrat.Spec.Reader

/-!
# From texts to trees in one call

* `Failure` — any error of these calls.
* `Spec.parseInput`, `Spec.astOf`, `Spec.cstOf` — from the text of a grammar and the text of an input
  to a parse, a syntax tree and a caller's value.

Syntax errors in the input do not make these calls fail.
-/

namespace Packrat

/-- Any error on the way from texts to trees. -/
inductive Failure where
  | grammar (error : GrammarError)
  | parse (error : ParseError)
  | cst (error : CstError)
deriving DecidableEq, Repr

namespace Failure

/-- The message of the error inside. -/
def message : Failure → String
  | .grammar error => error.message
  | .parse error => error.message
  | .cst error => error.message

/-- The code of the error inside. -/
def code : Failure → String
  | .grammar error => error.code
  | .parse error => error.code
  | .cst error => error.code

/-- The advice of the error inside. -/
def help? : Failure → Option String
  | .grammar error => error.help?
  | .parse _ => none
  | .cst error => error.help?

end Failure

namespace Spec

/-- Parses an input with the grammar of a specification. -/
def parseInput (spec rule input : String) : Except Failure Parse := do
  let g ← (read spec).mapError .grammar
  (Packrat.parse g rule input).mapError .parse

/-- The syntax tree of an input. -/
def astOf (spec rule input : String) : Except Failure Ast :=
  return .ofParse (← parseInput spec rule input)

/-- The value that the factories make of an input. -/
def cstOf {m : Type → Type} {α : Type} [Monad m] (spec rule input : String)
    (factories : Factories m α) (allowErrors : Bool) : ExceptT Failure m α := do
  let ast ← ExceptT.mk (pure (astOf spec rule input))
  (ast.construct factories allowErrors).adapt .cst

end Spec
end Packrat
