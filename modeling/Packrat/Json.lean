import Packrat.Text.Escape

/-!
# JSON values and their two written forms

* `Json` — JSON values. Members of an object keep the order in which they are written, because
  the written forms show it.
* `Json.compact` — the form without blanks.
* `Json.pretty` — one member or item a line, two blanks of indentation a level; an empty array or
  object stays on its line.
* `Json.member?`, `Json.word?` — what readers of JSON values need.

Scope: numbers are integers, except that a value read from outside may hold a fraction, which is
kept as its text.
-/

namespace Packrat

/-- A JSON value. -/
inductive Json where
  | null
  | bool (value : Bool)
  | int (value : Int)
  /-- A number that is not an integer, as it was written. -/
  | fraction (text : String)
  | str (value : String)
  | arr (items : List Json)
  /-- An object, with its members in written order. -/
  | obj (members : List (String × Json))

namespace Json

/-- A natural number as a JSON value. -/
def nat (n : Nat) : Json := .int n

/-! ## Strings -/

/-- One character inside a JSON string. Control characters are written as escapes, and everything
from U+0020 on except the quote and the backslash stands for itself. -/
def escapeChar (c : Char) : List Char :=
  if c = '\x22' then ['\\', '\x22']
  else if c = '\\' then ['\\', '\\']
  else if c = '\x08' then ['\\', 'b']
  else if c = '\x0c' then ['\\', 'f']
  else if c = '\n' then ['\\', 'n']
  else if c = '\r' then ['\\', 'r']
  else if c = '\t' then ['\\', 't']
  else if c.toNat < 0x20 then '\\' :: 'u' :: Escape.padZeros 4 (Escape.hexDigits c.toNat)
  else [c]

/-- A JSON string with its quotes. -/
def quote (text : String) : String :=
  String.ofList ('\x22' :: (text.toList.flatMap escapeChar ++ ['\x22']))

/-- A number, a constant or a string; arrays and objects are written by the two forms below. -/
def scalarText : Json → String
  | .null => "null"
  | .bool true => "true"
  | .bool false => "false"
  | .int value => toString value
  | .fraction text => text
  | .str value => quote value
  | .arr _ | .obj _ => ""

/-! ## The compact form -/

mutual

/-- The text of a value without blanks. -/
def compact : Json → String
  | .arr items => "[" ++ compactItems items ++ "]"
  | .obj members => "\x7b" ++ compactMembers members ++ "\x7d"
  | value => scalarText value

/-- Items with commas between them. -/
def compactItems : List Json → String
  | [] => ""
  | [item] => compact item
  | item :: rest => compact item ++ "," ++ compactItems rest

/-- Members with commas between them. -/
def compactMembers : List (String × Json) → String
  | [] => ""
  | [(key, value)] => quote key ++ ":" ++ compact value
  | (key, value) :: rest => quote key ++ ":" ++ compact value ++ "," ++ compactMembers rest

end

/-! ## The indented form -/

/-- A line break followed by the indentation of a nesting level. -/
def newline (depth : Nat) : String := String.ofList ('\n' :: List.replicate (2 * depth) ' ')

mutual

/-- The indented text of a value that stands `depth` levels deep. -/
def prettyAt (depth : Nat) : Json → String
  | .arr [] => "[]"
  | .arr items => "[" ++ newline (depth + 1) ++ prettyItems (depth + 1) items ++ newline depth ++ "]"
  | .obj [] => "\x7b\x7d"
  | .obj members =>
    "\x7b" ++ newline (depth + 1) ++ prettyMembers (depth + 1) members ++ newline depth ++ "\x7d"
  | value => scalarText value

/-- Items on lines of their own. -/
def prettyItems (depth : Nat) : List Json → String
  | [] => ""
  | [item] => prettyAt depth item
  | item :: rest => prettyAt depth item ++ "," ++ newline depth ++ prettyItems depth rest

/-- Members on lines of their own. -/
def prettyMembers (depth : Nat) : List (String × Json) → String
  | [] => ""
  | [(key, value)] => quote key ++ ": " ++ prettyAt depth value
  | (key, value) :: rest =>
    quote key ++ ": " ++ prettyAt depth value ++ "," ++ newline depth ++ prettyMembers depth rest

end

/-- The indented text of a value. -/
def pretty (value : Json) : String := prettyAt 0 value

/-! ## Reading values -/

/-- The member of that name, if there is one. -/
def member? (members : List (String × Json)) (key : String) : Option Json :=
  members.lookup key

/-- The first natural number that does not fit a machine word of 64 bits. -/
def wordBound : Nat := 18446744073709551616

/-- A natural number that fits a machine word. -/
def word? : Json → Option Nat
  | .int (.ofNat n) => if n < wordBound then some n else none
  | _ => none

/-- A string. -/
def str? : Json → Option String
  | .str value => some value
  | _ => none

end Json
end Packrat
