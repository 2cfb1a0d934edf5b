/-!
# Parts of an input

An input is an array of characters, and all positions and lengths count characters.

* `slice` — the text of a stretch of input; what reaches past the end is cut off.
* `startsAt` — whether a text stands at a position.
* `occursWithin` — whether a text stands somewhere inside a stretch.
-/

namespace Packrat

/-- The `len` characters from `pos` on, or as many of them as there are. -/
def slice (input : Array Char) (pos len : Nat) : String :=
  String.ofList (input.extract pos (pos + len)).toList

/-- Whether `text` stands at `pos`. -/
def startsAt (input : Array Char) : List Char → Nat → Bool
  | [], _ => true
  | c :: rest, pos => input[pos]? == some c && startsAt input rest (pos + 1)

/-- Whether `text` stands somewhere between `start` and `stop`; the empty text always does. -/
def occursWithin (input : Array Char) (text : List Char) (start stop : Nat) : Bool :=
  text.isEmpty ||
    (List.range (stop + 1 - text.length - start)).any fun k => startsAt input text (start + k)

end Packrat
