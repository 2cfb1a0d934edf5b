import Packrat.Text.Escape

/-!
# Grammar expressions

The bodies of rules, as trees.

* `CharRange` — an inclusive range of characters, by code point.
* `Expr` — a rule body: terminals, sequences, ordered choices, repetitions, options, references to
  rules by name, and the two lookaheads.
* `Expr.size` — how many expression nodes a body has.
* `Expr.render` — the body in grammar notation. Sequences and choices are always parenthesised, so
  operators attach to what stands next to them.

A reference keeps its name as it was written; the mark `~` that a name may carry is removed where
names are compared (`Packrat.unmarked`).
-/

namespace Packrat

/-! ## Character classes -/

/-- All characters from `lo` to `hi`, both included; empty when `hi` comes before `lo`. -/
structure CharRange where
  /-- The first character of the range. -/
  lo : Char
  /-- The last character of the range. -/
  hi : Char
deriving DecidableEq, Repr

namespace CharRange

/-- The range of one character. -/
def single (c : Char) : CharRange := ⟨c, c⟩

/-- Whether the range holds `c`. -/
def contains (r : CharRange) (c : Char) : Bool := r.lo ≤ c && c ≤ r.hi

/-- A member of a class in grammar notation: brackets and the hyphen are escaped on top of what a
literal escapes. -/
def renderMember (c : Char) : List Char :=
  if c = '[' ∨ c = ']' ∨ c = '-' then ['\\', c] else Escape.encodeChar c

/-- A range in grammar notation; one character stands alone. -/
def render (r : CharRange) : List Char :=
  if r.lo = r.hi then renderMember r.lo
  else renderMember r.lo ++ '-' :: renderMember r.hi

end CharRange

/-- Whether a class accepts `c`: some range holds it, or, for an inverted class, none does. -/
def classAccepts (ranges : List CharRange) (inverted : Bool) (c : Char) : Bool :=
  ranges.any (·.contains c) != inverted

/-! ## Expressions -/

/-- A rule body. -/
inductive Expr where
  /-- An exact text. -/
  | literal (text : List Char)
  /-- One given character. -/
  | char (c : Char)
  /-- One character inside, or when inverted outside, all of the ranges. -/
  | charClass (ranges : List CharRange) (inverted : Bool)
  /-- Any one character. -/
  | anyChar
  /-- Nothing; always matches. -/
  | empty
  /-- All items in order. -/
  | seq (items : List Expr)
  /-- The first item that matches. -/
  | choice (items : List Expr)
  /-- The item as often as it matches, at least once if `atLeastOne`. -/
  | repeated (item : Expr) (atLeastOne : Bool)
  /-- The item or nothing. -/
  | optional (item : Expr)
  /-- The body of the named rule. -/
  | reference (name : String)
  /-- Nothing, where the item would match. -/
  | ahead (item : Expr)
  /-- Nothing, where the item would not match. -/
  | notAhead (item : Expr)
deriving Repr

namespace Expr

/-- A literal from a string. -/
def lit (text : String) : Expr := .literal text.toList

/-- The class of one range. -/
def range (lo hi : Char) : Expr := .charClass [⟨lo, hi⟩] false

/-- Zero or more. -/
def star (item : Expr) : Expr := .repeated item false

/-- One or more. -/
def plus (item : Expr) : Expr := .repeated item true

/-- A choice between single characters. -/
def oneOf (chars : List Char) : Expr := .choice (chars.map .char)

mutual

/-- The number of expression nodes. -/
def size : Expr → Nat
  | .literal _ | .char _ | .charClass _ _ | .anyChar | .empty | .reference _ => 1
  | .seq items | .choice items => sizeItems items + 1
  | .repeated item _ | .optional item | .ahead item | .notAhead item => item.size + 1

/-- The number of expression nodes of a list of expressions. -/
def sizeItems : List Expr → Nat
  | [] => 0
  | item :: rest => item.size + sizeItems rest

end

/-! ## Notation -/

mutual

/-- The expression in grammar notation. -/
def render : Expr → List Char
  | .literal text => '\x22' :: (Escape.encode text ++ ['\x22'])
  | .char c => '\x27' :: (Escape.encodeChar c ++ ['\x27'])
  | .charClass ranges inverted =>
    '[' :: ((if inverted then ['^'] else []) ++ ranges.flatMap CharRange.render ++ [']'])
  | .anyChar => ['.']
  | .empty => ['(', ')']
  | .seq items => '(' :: (renderItems [' '] items ++ [')'])
  | .choice items => '(' :: (renderItems [' ', '/', ' '] items ++ [')'])
  | .repeated item atLeastOne => item.render ++ [if atLeastOne then '+' else '*']
  | .optional item => item.render ++ ['?']
  | .reference name => name.toList
  | .ahead item => '&' :: item.render
  | .notAhead item => '!' :: item.render

/-- Expressions in grammar notation with a separator between them. -/
def renderItems (separator : List Char) : List Expr → List Char
  | [] => []
  | [item] => item.render
  | item :: rest => item.render ++ separator ++ renderItems separator rest

end

end Expr
end Packrat
