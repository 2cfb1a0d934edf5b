import Packrat.Grammar.Basic
import Packrat.Text.Slice

/-!
# Syntax errors

* `SyntaxError` — a stretch of input that fits nowhere, or a grammar element that is missing.
* `SyntaxError.message` — its wording, with a missing clause named by index.
* `SyntaxError.describe` — the same with the missing clause in grammar notation.
-/

namespace Packrat

/-- An error found in an input. With a length, that much input was passed over; without one, an
element of the grammar was taken as present. -/
structure SyntaxError where
  /-- Where the error is. -/
  pos : Nat
  /-- How much input was passed over. -/
  len : Nat
  /-- The clause that is missing, where one is known. -/
  missing : Option ClauseId
deriving DecidableEq, Repr

namespace SyntaxError

/-- Where the input goes on after the error. -/
def stop (e : SyntaxError) : Nat := e.pos + e.len

/-- Whether the error is a missing element. -/
def isDeletion (e : SyntaxError) : Bool := e.len == 0

/-- The text that was passed over. -/
def skippedText (e : SyntaxError) (input : Array Char) : String := slice input e.pos e.len

/-- The wording of an error. -/
def message (e : SyntaxError) : String :=
  if e.len = 0 then
    match e.missing with
    | some id => "Missing grammar element " ++ id.text ++ " at pos " ++ toString e.pos
    | none => "Missing grammar element at pos " ++ toString e.pos
  else
    toString e.len ++ " characters of unexpected input at pos " ++ toString e.pos

/-- The wording of an error, with a missing clause in grammar notation. -/
def describe (g : Grammar) (e : SyntaxError) : String :=
  match e.missing with
  | some id =>
    if e.len = 0 then
      "Missing grammar element " ++ g.display id ++ " at pos " ++ toString e.pos
    else e.message
  | none => e.message

end SyntaxError
end Packrat
